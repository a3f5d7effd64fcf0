import Mathlib.Algebra.BigOperators.Group.Finset.Piecewise
import Mathlib.Algebra.Order.BigOperators.Group.Finset
import Mathlib.Order.Interval.Finset.Nat
import Novino.Lib.Bytes

/-! Pieces of a sequence of bytes: what their sizes add up to, and what comes out when they are copied to their places.
    -/

namespace Novino

structure Piece where
  start : ℕ
  size : ℕ
deriving DecidableEq, Repr

namespace Piece

variable {p q : Piece} {ps : List Piece} {n b : ℕ}

def Has (p : Piece) (b : ℕ) : Prop := p.start ≤ b ∧ b < p.start + p.size

instance (p : Piece) (b : ℕ) : Decidable (p.Has b) := inferInstanceAs (Decidable (_ ∧ _))

def Apart (p q : Piece) : Prop := ∀ b, p.Has b → ¬q.Has b

def Covers (ps : List Piece) (n : ℕ) : Prop := ∀ b < n, ∃ p ∈ ps, p.Has b

def Inside (ps : List Piece) (n : ℕ) : Prop := ∀ p ∈ ps, p.size = 0 ∨ p.start + p.size ≤ n

def total (ps : List Piece) : ℕ := (ps.map size).sum

def times (ps : List Piece) (b : ℕ) : ℕ := ps.countP fun p => p.Has b

theorem times_cons : times (p :: ps) b = times ps b + if p.Has b then 1 else 0 := by
  simp only [times, List.countP_cons, decide_eq_true_eq]

theorem times_pos : 0 < times ps b ↔ ∃ p ∈ ps, p.Has b := by
  simp only [times, List.countP_pos_iff, decide_eq_true_eq]

theorem sum_has (h : p.size = 0 ∨ p.start + p.size ≤ n) :
    ∑ b ∈ Finset.range n, (if p.Has b then 1 else 0) = p.size := by
  have hfilter : (Finset.range n).filter p.Has = Finset.Ico p.start (p.start + p.size) := by
    ext b
    simp only [Finset.mem_filter, Finset.mem_range, Finset.mem_Ico]
    unfold Has
    omega
  rw [← Finset.card_filter, hfilter, Nat.card_Ico]
  omega

theorem sum_times (h : Inside ps n) : ∑ b ∈ Finset.range n, times ps b = total ps := by
  induction ps with
  | nil => exact Finset.sum_eq_zero fun _ _ => rfl
  | cons p ps ih =>
    obtain ⟨hp, hps⟩ := List.forall_mem_cons.mp h
    simp only [times_cons, Finset.sum_add_distrib, ih hps, sum_has hp]
    exact Nat.add_comm _ _

theorem pairwise_apart_iff : ps.Pairwise Apart ↔ ∀ b, times ps b ≤ 1 := by
  induction ps with
  | nil => exact iff_of_true List.Pairwise.nil fun _ => Nat.zero_le 1
  | cons p ps ih =>
    rw [List.pairwise_cons, ih]
    simp only [times_cons]
    constructor
    · rintro ⟨hp, hps⟩ b
      split
      · rename_i hb
        have hnone : times ps b = 0 := by
          by_contra hne
          obtain ⟨q, hq, hqb⟩ := times_pos.mp (Nat.pos_of_ne_zero hne)
          exact hp q hq b hb hqb
        omega
      · exact hps b
    · intro h
      refine ⟨fun q hq b hpb hqb => ?_, fun b => Nat.le_of_add_right_le (h b)⟩
      have hpos := times_pos.mpr ⟨q, hq, hqb⟩
      have hle := h b
      rw [if_pos hpb] at hle
      omega

theorem covers_iff_apart (hin : Inside ps n) (hsum : total ps = n) : Covers ps n ↔ ps.Pairwise Apart := by
  have hone : ∑ b ∈ Finset.range n, times ps b = ∑ _b ∈ Finset.range n, 1 := by
    rw [sum_times hin, hsum, ← Finset.card_eq_sum_ones, Finset.card_range]
  rw [pairwise_apart_iff]
  constructor
  · intro hcov b
    by_cases hb : b < n
    · have hge : ∀ b ∈ Finset.range n, 1 ≤ times ps b := fun b hb => times_pos.mpr (hcov b (Finset.mem_range.mp hb))
      exact ((Finset.sum_eq_sum_iff_of_le hge).mp hone.symm b (Finset.mem_range.mpr hb)).ge
    · have hnone : times ps b = 0 := by
        by_contra hne
        obtain ⟨p, hp, hpb⟩ := times_pos.mp (Nat.pos_of_ne_zero hne)
        have := hin p hp
        unfold Has at hpb
        omega
      omega
  · intro hle b hb
    have heq := (Finset.sum_eq_sum_iff_of_le fun b _ => hle b).mp hone b (Finset.mem_range.mpr hb)
    exact times_pos.mp (by omega)

end Piece
end Novino
