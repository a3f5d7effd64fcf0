import Mathlib.Data.Nat.Count

/-! Runs of free positions, and the best fit among them. A position is free, stops a run, or is neither and is passed
    over. -/

namespace Novino.Runs

variable (free stop : Nat → Prop)

def Opens (p : Nat) : Prop := free p ∧ ∀ q < p, free q → ∃ x, q < x ∧ x < p ∧ stop x

def NoOpen (e : Nat) : Prop := ∀ q < e, free q → ∃ x, q < x ∧ x < e ∧ stop x

section
variable {free stop}

theorem noOpen_succ_stop {e : Nat} (hd : ∀ x, free x → ¬stop x) (h : stop e) : NoOpen free stop (e + 1) := by
  intro q hq hf
  have : q ≠ e := fun heq => hd q hf (heq ▸ h)
  exact ⟨e, by omega, by omega, h⟩

theorem NoOpen.succ {e : Nat} (h : NoOpen free stop e) (hf : ¬free e) : NoOpen free stop (e + 1) := by
  intro q hq hqf
  have : q ≠ e := fun heq => hf (heq ▸ hqf)
  obtain ⟨x, hx₁, hx₂, hx⟩ := h q (by omega) hqf
  exact ⟨x, hx₁, by omega, hx⟩

end

variable [DecidablePred free]

def length (p e : Nat) : Nat := Nat.count free e - Nat.count free p

def Closed (e p n : Nat) : Prop :=
  Opens free stop p ∧ ∃ x, p < x ∧ x < e ∧ stop x ∧ (∀ y, p ≤ y → y < x → ¬stop y) ∧ n = length free p x

/-- A run starts at `p` and is not stopped before `e`. Up to there its length is `n`. -/
def Open (e p n : Nat) : Prop :=
  Opens free stop p ∧ p < e ∧ (∀ y, p ≤ y → y < e → ¬stop y) ∧ n = length free p e

def Run (e p n : Nat) : Prop := Closed free stop e p n ∨ Open free stop e p n

section
variable {free stop}

theorem length_succ {p e : Nat} (h : p ≤ e) :
    length free p (e + 1) = length free p e + if free e then 1 else 0 := by
  have hmono : Nat.count free p ≤ Nat.count free e := Nat.count_monotone free h
  unfold length
  rw [Nat.count_succ]
  omega

theorem length_self (p : Nat) : length free p p = 0 := by simp [length]

theorem length_le (p e : Nat) : length free p e ≤ e - p := by
  by_cases h : p ≤ e
  · obtain ⟨k, rfl⟩ := Nat.le.dest h
    have := Nat.count_le (p := fun j => free (p + j)) (n := k)
    rw [length, Nat.count_add]
    omega
  · have := Nat.count_monotone free (show e ≤ p by omega)
    unfold length
    omega

theorem NoOpen.not_open {e p n : Nat} (h : NoOpen free stop e) : ¬Open free stop e p n := by
  rintro ⟨ho, hp, hn, -⟩
  obtain ⟨x, hx₁, hx₂, hx⟩ := h p hp ho.1
  exact hn x (by omega) hx₂ hx

theorem Closed.lt_open {e p n q m : Nat} (h : Closed free stop e p n) (h' : Open free stop e q m) : p < q := by
  obtain ⟨-, x, hpx, hxe, hx, -⟩ := h
  obtain ⟨-, -, hq, -⟩ := h'
  by_contra hlt
  exact hq x (by omega) hxe hx

theorem Open.unique {e p n q m : Nat} (h : Open free stop e p n)
    (h' : Open free stop e q m) : p = q ∧ n = m := by
  obtain ⟨hop, hpe, hp, rfl⟩ := h
  obtain ⟨hoq, hqe, hq, rfl⟩ := h'
  have heq : p = q := by
    rcases Nat.lt_trichotomy p q with hlt | heq | hlt
    · obtain ⟨x, hx₁, hx₂, hx⟩ := hoq.2 p hlt hop.1
      exact absurd hx (hp x (by omega) (by omega))
    · exact heq
    · obtain ⟨x, hx₁, hx₂, hx⟩ := hop.2 q hlt hoq.1
      exact absurd hx (hq x (by omega) (by omega))
  subst heq
  exact ⟨rfl, rfl⟩

theorem Closed.mono {e e' p n : Nat} (h : Closed free stop e p n) (he : e ≤ e') : Closed free stop e' p n := by
  obtain ⟨ho, x, hpx, hxe, hx⟩ := h
  exact ⟨ho, x, hpx, by omega, hx⟩

theorem closed_succ {e p n : Nat} (h : ¬stop e) : Closed free stop (e + 1) p n ↔ Closed free stop e p n := by
  refine ⟨?_, fun h => h.mono (by omega)⟩
  rintro ⟨ho, x, hpx, hxe, hx, hr⟩
  have : x ≠ e := fun heq => h (heq ▸ hx)
  exact ⟨ho, x, hpx, by omega, hx, hr⟩

theorem closed_succ_stop {e p n : Nat} (h : stop e) : Closed free stop (e + 1) p n ↔ Run free stop e p n := by
  constructor
  · rintro ⟨ho, x, hpx, hxe, hx, hn, rfl⟩
    by_cases heq : x = e
    · subst heq
      exact .inr ⟨ho, hpx, hn, rfl⟩
    · exact .inl ⟨ho, x, hpx, by omega, hx, hn, rfl⟩
  · rintro (hc | ⟨ho, hpe, hn, rfl⟩)
    · exact hc.mono (by omega)
    · exact ⟨ho, e, hpe, by omega, h, hn, rfl⟩

theorem Open.succ {e p n : Nat} (h : Open free stop e p n) (hs : ¬stop e) :
    Open free stop (e + 1) p (n + if free e then 1 else 0) := by
  obtain ⟨ho, hpe, hn, rfl⟩ := h
  refine ⟨ho, by omega, fun y hy hye => ?_, (length_succ (by omega)).symm⟩
  by_cases heq : y = e
  · exact heq ▸ hs
  · exact hn y hy (by omega)

theorem NoOpen.opens {e : Nat} (h : NoOpen free stop e) (hf : free e) (hs : ¬stop e) : Open free stop (e + 1) e 1 := by
  refine ⟨⟨hf, h⟩, by omega, fun y hy hye => ?_, ?_⟩
  · rwa [show y = e by omega]
  · rw [length_succ (Nat.le_refl e), length_self, if_pos hf]

end

/-- For a request of `cnt`, a run of length `m` is preferred to one of length `n`. -/
def Beats (cnt m n : Nat) : Prop := cnt ≤ m ∧ (n < cnt ∨ m < n) ∨ m < cnt ∧ n < m

/-- Among the runs `R`, the first of the best ones starts at `p` and has length `n`. Length zero stands for no
    run. -/
structure BestFit (cnt : Nat) (R : Nat → Nat → Prop) (p n : Nat) : Prop where
  none : n = 0 → ∀ q m, ¬R q m
  run : n ≠ 0 → R p n
  best : n ≠ 0 → ∀ q m, R q m → ¬Beats cnt m n ∧ (m = n → p ≤ q)

section
variable {cnt : Nat} {R : Nat → Nat → Prop} {p n : Nat}

section
variable (h : BestFit cnt R p n)
include h

theorem BestFit.congr {R' : Nat → Nat → Prop} (hR : ∀ q m, R' q m ↔ R q m) : BestFit cnt R' p n :=
  ⟨fun hn q m hr => h.none hn q m ((hR q m).mp hr), fun hn => (hR p n).mpr (h.run hn),
    fun hn q m hr => h.best hn q m ((hR q m).mp hr)⟩

theorem BestFit.take {q m : Nat} (hm : m ≠ 0) (hb : n = 0 ∨ Beats cnt m n)
    (hlater : ∀ q' m', R q' m' → q' < q) : BestFit cnt (fun q' m' => R q' m' ∨ q' = q ∧ m' = m) q m := by
  refine ⟨fun h0 => absurd h0 hm, fun _ => .inr ⟨rfl, rfl⟩, fun _ q' m' hr => ?_⟩
  rcases hr with hr | ⟨rfl, rfl⟩
  · by_cases hn : n = 0
    · exact absurd hr (h.none hn q' m')
    · have hbeat : Beats cnt m n := hb.resolve_left hn
      have := (h.best hn q' m' hr).1
      unfold Beats at *
      omega
  · unfold Beats
    omega

theorem BestFit.keep {q m : Nat} (hn : n ≠ 0) (hb : ¬Beats cnt m n)
    (hlater : ∀ q' m', R q' m' → q' < q) : BestFit cnt (fun q' m' => R q' m' ∨ q' = q ∧ m' = m) p n := by
  refine ⟨fun h0 => absurd h0 hn, fun _ => .inl (h.run hn), fun _ q' m' hr => ?_⟩
  rcases hr with hr | ⟨rfl, rfl⟩
  · exact h.best hn q' m' hr
  · exact ⟨hb, fun _ => Nat.le_of_lt (hlater p n (h.run hn))⟩

theorem BestFit.unique {q m : Nat} (h' : BestFit cnt R q m) (hn : n ≠ 0) : p = q ∧ n = m := by
  have hm : m ≠ 0 := fun h0 => h'.none h0 p n (h.run hn)
  obtain ⟨h₁, h₂⟩ := h.best hn q m (h'.run hm)
  obtain ⟨h₃, h₄⟩ := h'.best hm p n (h.run hn)
  have heq : n = m := by
    unfold Beats at *
    omega
  exact ⟨Nat.le_antisymm (h₂ heq.symm) (h₄ heq), heq⟩

end

end

end Novino.Runs
