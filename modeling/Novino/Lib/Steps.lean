import Mathlib.Tactic.Common

/-! Runs of a step function: what holds at each step of a run, and what an invariant gives for it. -/

namespace Novino.Steps

variable {σ α : Type*} {step : σ → α → σ} {P Q : σ → α → Prop} {I : σ → Prop}

/-- `P` holds at every step of the run of a list of actions from a state. -/
def Along (step : σ → α → σ) (P : σ → α → Prop) : σ → List α → Prop
  | _, [] => True
  | s, a :: as => P s a ∧ Along step P (step s a) as

instance Along.decidable [∀ s a, Decidable (P s a)] : (s : σ) → (as : List α) → Decidable (Along step P s as)
  | _, [] => inferInstanceAs (Decidable True)
  | s, a :: as =>
    have := Along.decidable (step s a) as
    inferInstanceAs (Decidable (P s a ∧ Along step P (step s a) as))

theorem Along.of_forall (h : ∀ s a, P s a) {s : σ} {as : List α} : Along step P s as := by
  induction as generalizing s with
  | nil => trivial
  | cons a as ih => exact ⟨h s a, ih⟩

theorem Along.invariant (keep : ∀ s a, I s → P s a → I (step s a)) {s : σ} {as : List α} (hs : I s)
    (h : Along step P s as) : I (as.foldl step s) := by
  induction as generalizing s with
  | nil => exact hs
  | cons a as ih => exact ih (keep s a hs h.1) h.2

theorem Along.imp (keep : ∀ s a, I s → P s a → I (step s a)) (out : ∀ s a, I s → P s a → Q s a) {s : σ} {as : List α}
    (hs : I s) (h : Along step P s as) : Along step Q s as := by
  induction as generalizing s with
  | nil => trivial
  | cons a as ih => exact ⟨out s a hs h.1, ih (keep s a hs h.1) h.2⟩

theorem Along.congr {R : σ → α → Prop} (keep : ∀ s a, I s → P s a → R s a → I (step s a))
    (out : ∀ s a, I s → P s a → (Q s a ↔ R s a)) {s : σ} {as : List α} (hs : I s) (h : Along step P s as) :
    Along step Q s as ↔ Along step R s as := by
  induction as generalizing s with
  | nil => exact Iff.rfl
  | cons a as ih =>
    have hiff := out s a hs h.1
    constructor
    · rintro ⟨hQ, hrest⟩
      have hR := hiff.mp hQ
      exact ⟨hR, (ih (keep s a hs h.1 hR) h.2).mp hrest⟩
    · rintro ⟨hR, hrest⟩
      exact ⟨hiff.mpr hR, (ih (keep s a hs h.1 hR) h.2).mpr hrest⟩

theorem Along.invariant_iff (keep : ∀ s a, I s → P s a → (I (step s a) ↔ Q s a)) {s : σ} {as : List α} (hs : I s)
    (h : Along step P s as) : Along step (fun s a => I (step s a)) s as ↔ Along step Q s as :=
  Along.congr (fun s a hs hP hQ => (keep s a hs hP).mpr hQ) keep hs h

theorem Along.exact {G : σ → Prop} (keep : ∀ s a, I s → P s a → Q s a → I (step s a)) (good : ∀ s, I s → G s)
    (bad : ∀ s a, I s → P s a → G (step s a) → Q s a) {s : σ} {as : List α} (hs : I s) (h : Along step P s as) :
    Along step (fun s a => G (step s a)) s as ↔ Along step Q s as :=
  Along.congr keep (fun s a hs hP => ⟨bad s a hs hP, fun hQ => good _ (keep s a hs hP hQ)⟩) hs h

theorem Along.append {s : σ} {as bs : List α} :
    Along step P s (as ++ bs) ↔ Along step P s as ∧ Along step P (as.foldl step s) bs := by
  induction as generalizing s with
  | nil => exact ⟨fun h => ⟨trivial, h⟩, fun h => h.2⟩
  | cons a as ih =>
    show P s a ∧ Along step P (step s a) (as ++ bs) ↔ (P s a ∧ Along step P (step s a) as) ∧ Along step P _ bs
    rw [ih, and_assoc]
    rfl

theorem Along.concat {s : σ} {as : List α} {a : α} :
    Along step P s (as ++ [a]) ↔ Along step P s as ∧ P (as.foldl step s) a := by
  rw [Along.append]
  exact and_congr_right fun _ => ⟨fun h => h.1, fun h => ⟨h, trivial⟩⟩

end Novino.Steps
