import Mathlib.Tactic.Common

/-! Endless runs of a step function, and what comes about in them when steps of some kind are taken again and again. -/

namespace Novino.Fair

variable {σ α : Type*} {step : σ → α → σ} {s₀ : σ} {acts : Nat → α} (I : σ → Prop) (goal : σ → α → Prop)

def state (step : σ → α → σ) (s₀ : σ) (acts : Nat → α) : Nat → σ
  | 0 => s₀
  | t + 1 => step (state step s₀ acts t) (acts t)

theorem lasts (keep : ∀ s a, I s → ¬goal s a → I (step s a)) {t : Nat} (h : I (state step s₀ acts t)) (n : Nat) :
    I (state step s₀ acts (t + n)) ∨
      ∃ t', t ≤ t' ∧ t' < t + n ∧ goal (state step s₀ acts t') (acts t') := by
  induction n with
  | zero => exact .inl h
  | succ n ih =>
    rcases ih with hI | ⟨t', h1, h2, hg⟩
    · by_cases hg : goal (state step s₀ acts (t + n)) (acts (t + n))
      · exact .inr ⟨t + n, by omega, by omega, hg⟩
      · exact .inl (keep _ _ hI hg)
    · exact .inr ⟨t', h1, by omega, hg⟩

theorem leads (help : α → Prop) (rank : σ → Nat) (keep : ∀ s a, I s → ¬goal s a → I (step s a))
    (stay : ∀ s a, I s → ¬goal s a → rank (step s a) ≤ rank s)
    (down : ∀ s a, I s → ¬goal s a → help a → rank (step s a) < rank s)
    (fair : ∀ t, ∃ t', t ≤ t' ∧ help (acts t')) {t : Nat} (h : I (state step s₀ acts t)) :
    ∃ t', t ≤ t' ∧ goal (state step s₀ acts t') (acts t') := by
  induction hr : rank (state step s₀ acts t) using Nat.strongRecOn generalizing t with
  | _ r ih =>
    obtain ⟨u, hu, hhelp⟩ := fair t
    -- Up to the helpful step the number does not grow.
    have hbelow := lasts (fun s => I s ∧ rank s ≤ r) goal
      (fun s a hs hg => ⟨keep s a hs.1 hg, Nat.le_trans (stay s a hs.1 hg) hs.2⟩) ⟨h, Nat.le_of_eq hr⟩ (u - t)
    rw [show t + (u - t) = u by omega] at hbelow
    rcases hbelow with ⟨hI, hle⟩ | ⟨t', h1, -, hg⟩
    · by_cases hg : goal (state step s₀ acts u) (acts u)
      · exact ⟨u, hu, hg⟩
      · obtain ⟨t', h1, hg'⟩ := ih _ (Nat.lt_of_lt_of_le (down _ _ hI hg hhelp) hle) (t := u + 1) (keep _ _ hI hg) rfl
        exact ⟨t', by omega, hg'⟩
    · exact ⟨t', h1, hg⟩

end Novino.Fair
