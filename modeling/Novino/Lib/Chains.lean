import Mathlib.Data.Fintype.Pigeonhole

/-! Chains of parents: a function `up` that leads every element to the element above it. -/

namespace Novino.Chains

variable {α : Type*} {up up' : α → α} {r x y z : α}

def Below (up : α → α) (x y : α) : Prop := ∃ n, up^[n] y = x

theorem Below.refl (up : α → α) (x : α) : Below up x x := ⟨0, rfl⟩

theorem Below.step (h : Below up x (up y)) : Below up x y := by
  obtain ⟨n, hn⟩ := h
  exact ⟨n + 1, hn⟩

theorem below_iff : Below up x y ↔ y = x ∨ Below up x (up y) := by
  refine ⟨fun ⟨n, hn⟩ => ?_, fun h => h.elim (fun h => h ▸ Below.refl up y) Below.step⟩
  cases n with
  | zero => exact .inl hn
  | succ n => exact .inr ⟨n, hn⟩

theorem Below.induction {P : α → Prop} (h : Below up r x) (base : P r) (next : ∀ y, y ≠ r → P (up y) → P y) : P x := by
  obtain ⟨n, hn⟩ := h
  induction n generalizing x with
  | zero =>
    rw [Function.iterate_zero_apply] at hn
    exact hn ▸ base
  | succ n ih =>
    by_cases hx : x = r
    · exact hx ▸ base
    · exact next x hx (ih hn)

theorem Below.congr (h : Below up r x) (heq : ∀ y, Below up y x → y ≠ r → up' y = up y) : Below up' r x := by
  obtain ⟨n, hn⟩ := h
  induction n generalizing x with
  | zero => exact ⟨0, hn⟩
  | succ n ih =>
    by_cases hx : x = r
    · exact hx ▸ Below.refl up' x
    · refine Below.step ?_
      rw [heq x (Below.refl up x) hx]
      exact ih (fun y (hy : Below up y (up x)) => heq y hy.step) hn

theorem Below.update [DecidableEq α] (hz : Below up r z) (hy : Below up r y) (hxy : ¬Below up x y) :
    Below (Function.update up x y) r z := by
  have hy' : Below (Function.update up x y) r y :=
    hy.congr fun w hw _ => Function.update_of_ne (fun heq : w = x => hxy (heq ▸ hw)) _ _
  refine hz.induction (P := fun z => Below (Function.update up x y) r z) (Below.refl _ r) fun w hw ih => ?_
  refine Below.step ?_
  by_cases hwx : w = x
  · rw [hwx, Function.update_self]
    exact hy'
  · rw [Function.update_of_ne hwx]
    exact ih

theorem Below.bounded {up : Nat → Nat} {r x N : Nat} (h : Below up r x) (hr : up r = r)
    (hlt : ∀ n, up^[n] x < N) : up^[N] x = r := by
  classical
  have hfix : ∀ k, up^[k] r = r := fun k => Function.iterate_fixed hr k
  obtain ⟨n, hn, hmin⟩ : ∃ n, up^[n] x = r ∧ ∀ m < n, up^[m] x ≠ r :=
    ⟨Nat.find h, Nat.find_spec h, fun m hm => Nat.find_min h hm⟩
  have hinj : Function.Injective fun i : Fin n => (⟨up^[i] x, hlt i⟩ : Fin N) := by
    intro i j hij
    have hij : up^[i] x = up^[j] x := Fin.mk.inj hij
    -- from the larger index the chain would end as early as from the smaller one
    have aux : ∀ i j : Fin n, up^[i] x = up^[j] x → ¬i < j := fun i j hij hlt => by
      refine hmin (n - j + i) (by omega) ?_
      rw [Function.iterate_add_apply, hij, ← Function.iterate_add_apply, Nat.sub_add_cancel (by omega), hn]
    exact le_antisymm (not_lt.mp (aux j i hij.symm)) (not_lt.mp (aux i j hij))
  have hcard : n ≤ N := by simpa using Fintype.card_le_of_injective _ hinj
  rw [← Nat.sub_add_cancel hcard, Function.iterate_add_apply, hn, hfix]

end Novino.Chains
