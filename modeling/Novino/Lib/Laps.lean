import Mathlib.Algebra.Order.Group.Nat
import Mathlib.Tactic.Common

/-! Rings whose places carry a mark that changes from lap to lap: a reader that knows the mark of its lap can tell
    which places the writer has written. Places are counted on over the laps. -/

namespace Novino.Laps

variable {M p c : Nat} {bits : Nat → Bool}

/-- The mark of a place: it is set in the first lap, and changes with each lap. -/
def mark (M p : Nat) : Bool := p / M % 2 = 0

/-- The ring is written up to the place `p`: the lap from there on does not have its marks yet. -/
def Upto (M : Nat) (bits : Nat → Bool) (p : Nat) : Prop := ∀ q, p ≤ q → q < p + M → bits (q % M) ≠ mark M q

theorem mark_lap (hM : 0 < M) (p : Nat) : mark M (p + M) = !mark M p := by
  have hlap : (p + M) / M % 2 = 0 ↔ ¬p / M % 2 = 0 := by
    rw [Nat.add_div_right p hM]
    omega
  simp only [mark, hlap, decide_not]

theorem mark_succ_of_dvd (h : M ∣ p + 1) : mark M (p + 1) = !mark M p := by
  have hlap : (p + 1) / M % 2 = 0 ↔ ¬p / M % 2 = 0 := by
    rw [Nat.succ_div_of_dvd h]
    omega
  simp only [mark, hlap, decide_not]

theorem mark_succ_of_not_dvd (h : ¬M ∣ p + 1) : mark M (p + 1) = mark M p := by
  unfold mark
  rw [Nat.succ_div_of_not_dvd h]

theorem mark_zero (M : Nat) : mark M 0 = true := by simp [mark]

theorem Upto.mark_iff (h : Upto M bits p) (hM : 0 < M) (hc : c ≤ p) (hp : p ≤ c + M) :
    bits (c % M) = mark M c ↔ c < p := by
  constructor
  · intro hbit
    by_contra hlt
    obtain rfl : c = p := Nat.le_antisymm hc (Nat.not_lt.mp hlt)
    exact h c (Nat.le_refl c) (Nat.lt_add_of_pos_right hM) hbit
  · intro hlt
    have hne := h (c + M) hp (Nat.add_lt_add_right hlt M)
    rw [Nat.add_mod_right, mark_lap hM] at hne
    cases hb : bits (c % M) <;> cases hm : mark M c <;> simp [hb, hm] at hne ⊢

theorem mod_ne {q : Nat} (h : p < q) (hq : q < p + M) : q % M ≠ p % M := by
  intro he
  have hdist := Nat.sub_mod_eq_zero_of_mod_eq he
  rw [Nat.mod_eq_of_lt (by omega)] at hdist
  omega

theorem Upto.write (h : Upto M bits p) (hM : 0 < M) : Upto M (Function.update bits (p % M) (mark M p)) (p + 1) := by
  intro q hq hlt
  by_cases hlap : q = p + M
  · rw [hlap, Nat.add_mod_right, Function.update_self, mark_lap hM]
    simp
  · rw [Function.update_of_ne (mod_ne hq (by omega))]
    exact h q (Nat.le_of_succ_le hq) (by omega)

end Novino.Laps
