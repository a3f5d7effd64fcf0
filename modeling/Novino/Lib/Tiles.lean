import Mathlib.Data.List.Basic

/-! Lists of pieces that lie one behind the other and fill a range, with no gap and no overlap. -/

namespace Novino

variable {α : Type*} {start len : α → Nat} {lo hi mid : Nat} {x y : α} {xs ys : List α}

/-- The pieces fill the range from `lo` to `hi`, in their order. -/
def Tiles (start len : α → Nat) : Nat → List α → Nat → Prop
  | lo, [], hi => lo = hi
  | lo, x :: xs, hi => start x = lo ∧ Tiles start len (lo + len x) xs hi

namespace Tiles

theorem append : Tiles start len lo (xs ++ ys) hi ↔ ∃ mid, Tiles start len lo xs mid ∧ Tiles start len mid ys hi := by
  induction xs generalizing lo with
  | nil => simp [Tiles]
  | cons x xs ih =>
    simp only [List.cons_append, Tiles, ih, and_assoc]
    exact exists_and_left.symm

theorem le (h : Tiles start len lo xs hi) : lo ≤ hi := by
  induction xs generalizing lo with
  | nil => exact Nat.le_of_eq h
  | cons x xs ih => exact Nat.le_trans (Nat.le_add_right ..) (ih h.2)

theorem mem (h : Tiles start len lo xs hi) (hx : x ∈ xs) : lo ≤ start x ∧ start x + len x ≤ hi := by
  obtain ⟨before, after, rfl⟩ := List.append_of_mem hx
  obtain ⟨mid, h1, rfl, h2⟩ := append.mp h
  exact ⟨h1.le, h2.le⟩

section
variable (h : Tiles start len lo (xs ++ x :: ys) hi)
include h

theorem place : Tiles start len lo xs (start x) ∧ Tiles start len (start x + len x) ys hi := by
  obtain ⟨mid, h1, rfl, h2⟩ := append.mp h
  exact ⟨h1, h2⟩

theorem apart (hy : y ∈ xs ∨ y ∈ ys) : start y + len y ≤ start x ∨ start x + len x ≤ start y := by
  obtain ⟨h1, h2⟩ := h.place
  rcases hy with hy | hy
  · exact .inl (h1.mem hy).2
  · exact .inr (h2.mem hy).1

theorem exchange (hs : start y = start x) (hl : len y = len x) : Tiles start len lo (xs ++ y :: ys) hi := by
  obtain ⟨h1, h2⟩ := h.place
  exact append.mpr ⟨start x, h1, hs, by rw [hl]; exact h2⟩

theorem cut {y z : α} (hy : start y = start x)
    (hz : start z = start x + len y) (hl : len y + len z = len x) : Tiles start len lo (xs ++ y :: z :: ys) hi := by
  obtain ⟨h1, h2⟩ := h.place
  refine append.mpr ⟨start x, h1, hy, hz, ?_⟩
  rw [Nat.add_assoc, hl]
  exact h2

end

end Tiles
end Novino
