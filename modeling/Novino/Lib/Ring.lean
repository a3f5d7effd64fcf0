import Mathlib.Data.List.Basic

/-! Ring buffers without a counter: a ring of `size` cells that is empty when its two indices are the same, so that one
    cell stays unused. Items are put in at the head and taken out at the tail. -/

namespace Novino.Ring

variable {α : Type*} {size head tail : Nat} {data : Nat → α} {b : α}

def next (size i : Nat) : Nat := (i + 1) % size

def used (size head tail : Nat) : Nat := if tail ≤ head then head - tail else head + size - tail

def items (size : Nat) (data : Nat → α) (head tail : Nat) : List α :=
  (List.range (used size head tail)).map fun i => data ((tail + i) % size)

theorem next_lt (h : head < size) : next size head < size := Nat.mod_lt _ (by omega)

theorem next_eq (h : head < size) : next size head = if head + 1 = size then 0 else head + 1 := by
  unfold next
  split
  · next heq => rw [heq, Nat.mod_self]
  · exact Nat.mod_eq_of_lt (by omega)

theorem items_empty : items size data head head = [] := by simp [items, used]

theorem used_lt (hh : head < size) : used size head tail < size := by
  unfold used
  split <;> omega

section
variable (hh : head < size) (ht : tail < size)
include hh ht

theorem cell {i : Nat} (hi : i < used size head tail) : (tail + i) % size ≠ head := by
  have hlt : used size head tail < size := used_lt hh
  have hcell : (tail + i) % size = if tail + i < size then tail + i else tail + i - size := by
    split
    · next hlt => exact Nat.mod_eq_of_lt hlt
    · rw [Nat.mod_eq_sub_mod (by omega), Nat.mod_eq_of_lt (by omega)]
  unfold used at hi
  rw [hcell]
  split_ifs at hi ⊢ <;> omega

theorem used_push (hroom : next size head ≠ tail) : used size (next size head) tail = used size head tail + 1 := by
  rw [next_eq hh] at hroom ⊢
  unfold used
  split_ifs at hroom ⊢ <;> omega

theorem used_pop (hne : head ≠ tail) : used size head tail = used size head (next size tail) + 1 := by
  rw [next_eq ht]
  unfold used
  split_ifs <;> omega

theorem head_eq : (tail + used size head tail) % size = head := by
  unfold used
  split
  · rw [Nat.add_sub_cancel' ‹_›, Nat.mod_eq_of_lt hh]
  · rw [Nat.add_sub_cancel' (by omega), Nat.add_mod_right, Nat.mod_eq_of_lt hh]

theorem items_push (hroom : next size head ≠ tail) :
    items size data (next size head) tail = items size data head tail ++ [data head] := by
  rw [items, used_push hh ht hroom, List.range_succ, List.map_append, List.map_singleton, head_eq hh ht]
  rfl

theorem items_pop (hne : head ≠ tail) :
    items size data head tail = data tail :: items size data head (next size tail) := by
  rw [items, used_pop hh ht hne, List.range_succ_eq_map, List.map_cons, List.map_map, Nat.add_zero,
    Nat.mod_eq_of_lt ht]
  refine congrArg _ (List.map_congr_left fun i _ => congrArg data ?_)
  simp only [next, Nat.mod_add_mod, Nat.succ_eq_add_one]
  rw [Nat.add_right_comm, Nat.add_assoc]

theorem items_store : items size (Function.update data head b) head tail = items size data head tail :=
  List.map_congr_left fun _ hi => Function.update_of_ne (cell hh ht (List.mem_range.mp hi)) ..

end

end Novino.Ring
