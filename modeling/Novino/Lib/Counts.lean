import Mathlib.Data.List.Nodup
import Mathlib.Algebra.BigOperators.Group.List.Basic
import Mathlib.Data.List.Range
import Mathlib.Algebra.GroupWithZero.Nat

/-! Counts and sums over a list without repetitions when one element changes. -/

namespace Novino.Counts

variable {ι : Type*} [DecidableEq ι] {l : List ι} {x : ι}

theorem sum_map_change {f g : ι → Nat} (hl : l.Nodup) (hx : x ∈ l) (h : ∀ y ∈ l, y ≠ x → g y = f y) :
    (l.map g).sum + f x = (l.map f).sum + g x := by
  have hperm := List.perm_cons_erase hx
  have hrest : (l.erase x).map g = (l.erase x).map f :=
    List.map_congr_left fun y hy => by
      obtain ⟨hne, hy⟩ := hl.mem_erase_iff.mp hy
      exact h y hy hne
  rw [(hperm.map g).sum_eq, (hperm.map f).sum_eq, List.map_cons, List.map_cons, List.sum_cons, List.sum_cons, hrest]
  omega

theorem countP_eq_sum {α : Type*} (q : α → Bool) (l : List α) : l.countP q = (l.map fun x => (q x).toNat).sum := by
  induction l with
  | nil => rfl
  | cons x l ih =>
    rw [List.countP_cons, List.map_cons, List.sum_cons, ih, Nat.add_comm]
    cases q x <;> rfl

theorem countP_change {p q : ι → Bool} (hl : l.Nodup) (hx : x ∈ l) (h : ∀ y ∈ l, y ≠ x → q y = p y) :
    l.countP q + (p x).toNat = l.countP p + (q x).toNat := by
  rw [countP_eq_sum, countP_eq_sum]
  exact sum_map_change hl hx fun y hy hne => congrArg Bool.toNat (h y hy hne)

section Range
variable {α : Type*} (f : Nat → α) {i n : Nat}

theorem sum_range_update (g : α → Nat) (hi : i < n) (y : α) :
    ((List.range n).map fun j => g (Function.update f i y j)).sum + g (f i) =
      ((List.range n).map fun j => g (f j)).sum + g y := by
  have hchange := sum_map_change (f := fun j => g (f j)) (g := fun j => g (Function.update f i y j))
    (List.nodup_range (n := n)) (List.mem_range.mpr hi) fun j _ hj => by rw [Function.update_of_ne hj]
  rwa [Function.update_self] at hchange

theorem countP_range_update (q : α → Bool) (hi : i < n) (y : α) :
    (List.range n).countP (fun j => q (Function.update f i y j)) + (q (f i)).toNat =
      (List.range n).countP (fun j => q (f j)) + (q y).toNat := by
  rw [countP_eq_sum, countP_eq_sum]
  exact sum_range_update f (fun x => (q x).toNat) hi y

theorem apply_update_same {β : Type*} (g : α → β) {y : α} (h : g y = g (f i)) (j : Nat) :
    g (Function.update f i y j) = g (f j) := by
  rw [Function.update_apply]
  split
  · rename_i heq
    rw [heq, h]
  · rfl

theorem update_range (n : Nat) (y : α) : ∀ j ∈ List.range n, Function.update f n y j = f j := fun _ hj =>
  Function.update_of_ne (Nat.ne_of_lt (List.mem_range.mp hj)) _ _

theorem sum_range_push (g : α → Nat) (n : Nat) (y : α) :
    ((List.range (n + 1)).map fun j => g (Function.update f n y j)).sum =
      ((List.range n).map fun j => g (f j)).sum + g y := by
  rw [List.range_succ, List.map_append, List.map_congr_left fun j hj => by rw [update_range f n y j hj],
    List.sum_append, List.map_singleton, Function.update_self, List.sum_singleton]

theorem countP_range_push (q : α → Bool) (n : Nat) (y : α) :
    (List.range (n + 1)).countP (fun j => q (Function.update f n y j)) =
      (List.range n).countP (fun j => q (f j)) + (q y).toNat := by
  rw [countP_eq_sum, countP_eq_sum]
  exact sum_range_push f (fun x => (q x).toNat) n y

end Range

end Novino.Counts
