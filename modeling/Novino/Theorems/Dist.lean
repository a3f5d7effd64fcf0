import Mathlib.Algebra.Order.Floor.Div
import Mathlib.Tactic.Linarith
import Mathlib.Tactic.Ring
import Novino.Ext2.Alloc
import Novino.Ext2.Layout

/-! Distribution of indirect blocks: what `blocksDist` counts, and when its two modes agree. Counting back from all
    blocks leaves out the pointer blocks below the doubly indirect block. -/

namespace Novino.Ext2

variable {a b c n s d : Nat}

theorem lt_ceilDiv (ha : 0 < a) : c < b ⌈/⌉ a ↔ a * c < b := by
  rw [← not_le, ← not_le, not_iff_not]
  exact ceilDiv_le_iff_le_mul ha

theorem ceilDiv_eq_of (ha : 0 < a) (h₁ : b ≤ a * n) (h₂ : a * n < b + a) : b ⌈/⌉ a = n := by
  apply le_antisymm
  · exact (ceilDiv_le_iff_le_mul ha).mpr h₁
  · rcases Nat.eq_zero_or_pos n with rfl | hn
    · exact Nat.zero_le _
    · have : n - 1 < b ⌈/⌉ a := by
        rw [lt_ceilDiv ha, Nat.mul_sub, Nat.mul_one]
        have := Nat.le_mul_of_pos_right a hn
        omega
      omega

theorem ceilDiv_bounds (ha : 0 < a) (b : Nat) : b ≤ a * (b ⌈/⌉ a) ∧ a * (b ⌈/⌉ a) < b + a := by
  refine ⟨(ceilDiv_le_iff_le_mul ha).mp le_rfl, ?_⟩
  rcases Nat.eq_zero_or_pos (b ⌈/⌉ a) with h | h
  · rw [h, Nat.mul_zero]
    omega
  · have : b ⌈/⌉ a - 1 < b ⌈/⌉ a := by omega
    rw [lt_ceilDiv ha, Nat.mul_sub, Nat.mul_one] at this
    have := Nat.le_mul_of_pos_right a h
    omega

theorem ceilDiv_succ (hs : 0 < s) (k : Nat) :
    (k + 1) ⌈/⌉ s = k ⌈/⌉ s + if k % s = 0 then 1 else 0 := by
  obtain ⟨q, r, hr, rfl⟩ : ∃ q r, r < s ∧ k = s * q + r :=
    ⟨k / s, k % s, Nat.mod_lt k hs, (Nat.div_add_mod k s).symm⟩
  have hmod : (s * q + r) % s = r := by rw [Nat.mul_add_mod, Nat.mod_eq_of_lt hr]
  have hsucc : (s * q + r + 1) ⌈/⌉ s = q + 1 := ceilDiv_eq_of hs (by rw [Nat.mul_add]; omega)
    (by rw [Nat.mul_add]; omega)
  rw [hsucc, hmod]
  split
  · rename_i h
    rw [ceilDiv_eq_of (n := q) hs (by omega) (by omega)]
  · rename_i h
    rw [ceilDiv_eq_of (n := q + 1) hs (by rw [Nat.mul_add]; omega) (by rw [Nat.mul_add]; omega)]

theorem ceilDiv_ceilDiv (hs : 0 < s) (c : Nat) : (c ⌈/⌉ s) ⌈/⌉ s = c ⌈/⌉ (s * s) := by
  apply eq_of_forall_ge_iff
  intro n
  rw [ceilDiv_le_iff_le_mul hs, ceilDiv_le_iff_le_mul hs, ceilDiv_le_iff_le_mul (Nat.mul_pos hs hs), Nat.mul_assoc]

def taken (inclusive : Bool) : Nat := if inclusive then 1 else 0

theorem distDoubly_eq (hs : 0 < s) (inclusive : Bool) (fuel c nds : Nat) (hf : c ≤ fuel) :
    distDoubly s inclusive fuel (c : Int) nds = nds + c ⌈/⌉ (s + taken inclusive) := by
  have hstep : 0 < s + taken inclusive := by omega
  -- A count that has gone negative ends the loop like a count of zero.
  have hneg : ∀ (fuel nds : Nat) (z : Int), z ≤ 0 → distDoubly s inclusive fuel z nds = nds := by
    intro fuel nds z hz
    cases fuel with
    | zero => rfl
    | succ fuel => rw [distDoubly, if_neg (by omega)]
  induction fuel generalizing c nds with
  | zero =>
    obtain rfl : c = 0 := by omega
    simp [distDoubly]
  | succ fuel ih =>
    rcases Nat.eq_zero_or_pos c with rfl | hc
    · rw [hneg _ _ _ (by simp)]
      simp
    · rw [distDoubly, if_pos (by omega)]
      have hcount : ((if inclusive then (c : Int) - 1 else c) - s : Int) = (c : Int) - (s + taken inclusive : Nat) := by
        cases inclusive <;> simp [taken]
        omega
      simp only [hcount]
      by_cases hle : c ≤ s + taken inclusive
      · rw [hneg _ _ _ (by omega)]
        rw [ceilDiv_eq_of (n := 1) hstep (by omega) (by omega)]
      · rw [show ((c : Int) - (s + taken inclusive : Nat)) = ((c - (s + taken inclusive) : Nat) : Int) by omega,
          ih _ _ (by omega)]
        have h₁ := ceilDiv_bounds hstep (c - (s + taken inclusive))
        have h₂ : c ⌈/⌉ (s + taken inclusive) = (c - (s + taken inclusive)) ⌈/⌉ (s + taken inclusive) + 1 := by
          apply ceilDiv_eq_of hstep
          · rw [Nat.mul_add]
            omega
          · rw [Nat.mul_add]
            omega
        omega

def tripleCost (s : Nat) (inclusive : Bool) (k : Nat) : Nat := k * s + taken inclusive * (k + k ⌈/⌉ s)

theorem tripleCost_succ (hs : 0 < s) (inclusive : Bool) (k : Nat) :
    tripleCost s inclusive (k + 1) =
      tripleCost s inclusive k + s + taken inclusive + (if k % s = 0 then taken inclusive else 0) := by
  unfold tripleCost
  rw [ceilDiv_succ hs]
  split <;> ring

theorem lt_tripleCost_succ (hs : 0 < s) (inclusive : Bool) (k : Nat) :
    tripleCost s inclusive k < tripleCost s inclusive (k + 1) := by
  rw [tripleCost_succ hs]
  omega

theorem distTriply_eq (hs : 0 < s) (inclusive : Bool) (hn : c ≤ tripleCost s inclusive n)
    (hlt : ∀ k < n, tripleCost s inclusive k < c) (nds : Nat) (fuel k : Nat) (hk : k ≤ n) (hf : n ≤ fuel + k) :
    distTriply s inclusive fuel ((c : Int) - tripleCost s inclusive k) (nds + k ⌈/⌉ s) k = (nds + n ⌈/⌉ s, n) := by
  have hmono := strictMono_nat_of_lt_succ (lt_tripleCost_succ hs inclusive)
  induction fuel generalizing k with
  | zero =>
    obtain rfl : k = n := by omega
    rfl
  | succ fuel ih =>
    rcases Nat.eq_or_lt_of_le hk with rfl | hk
    · rw [distTriply, if_neg (by omega)]
    · have := hlt k hk
      rw [distTriply, if_pos (by omega)]
      have hnds : (if k % s = 0 then nds + k ⌈/⌉ s + 1 else nds + k ⌈/⌉ s) = nds + (k + 1) ⌈/⌉ s := by
        rw [ceilDiv_succ hs]
        split <;> omega
      have hleft : (c : Int) - tripleCost s inclusive (k + 1) =
          (if inclusive = true then
            (if k % s = 0 ∧ inclusive = true then (c : Int) - tripleCost s inclusive k - 1
              else (c : Int) - tripleCost s inclusive k) - 1
          else
            if k % s = 0 ∧ inclusive = true then (c : Int) - tripleCost s inclusive k - 1
              else (c : Int) - tripleCost s inclusive k) - s := by
        rw [tripleCost_succ hs]
        cases inclusive <;> by_cases hks : k % s = 0 <;> simp [taken, hks] <;> omega
      simp only [hnds, ← hleft]
      exact ih (k + 1) hk (by omega)

/-! ### The count in closed form -/

def indirectCount (s d : Nat) : Nat :=
  if d ≤ 12 then 0
  else if d ≤ 12 + s then 1
  else if d ≤ 12 + s + s * s then 2 + (d - 12 - s) ⌈/⌉ s
  else s + 3 + (d - 12 - s - s * s) ⌈/⌉ (s * s) + (d - 12 - s - s * s) ⌈/⌉ s

def Ibd.total (item : Ibd) : Nat := item.ns + item.nd + item.nds + item.nt + item.ntd + item.nts

theorem total_exclusive (hs : 0 < s) (d : Nat) : (distLevels s d false).total = indirectCount s d := by
  unfold indirectCount distLevels
  by_cases h₁ : d ≤ 12
  · rw [if_neg (by omega), if_pos h₁]
    rfl
  rw [if_pos (by omega), if_neg h₁]
  simp only [Bool.false_eq_true, ↓reduceIte]
  by_cases h₂ : d ≤ 12 + s
  · rw [if_neg (by omega), if_pos h₂]
    rfl
  rw [if_pos (by omega), if_neg h₂]
  by_cases h₃ : d ≤ 12 + s + s * s
  · rw [if_neg (by push_cast; omega), if_pos h₃]
    rw [show ((d : Int) - 12 - s) = ((d - 12 - s : Nat) : Int) by omega, Int.toNat_natCast,
      distDoubly_eq hs false _ _ _ le_rfl]
    simp [Ibd.total, taken]
  · rw [if_pos (by push_cast; omega), if_neg h₃]
    have hc : ((d : Int) - 12 - s - (s * s : Nat)) = ((d - 12 - s - s * s : Nat) : Int) := by omega
    generalize d - 12 - s - s * s = c at hc
    rw [hc, Int.toNat_natCast]
    have hb := ceilDiv_bounds hs c
    have h := distTriply_eq (c := c) (n := c ⌈/⌉ s) hs false
      (by simp [tripleCost, taken, Nat.mul_comm]; omega)
      (by
        intro k hk
        have := (lt_ceilDiv hs).mp hk
        simpa [tripleCost, taken, Nat.mul_comm] using this) s c 0 (Nat.zero_le _)
      (by have := (ceilDiv_le_iff_le_mul hs (b := c) (c := c)).mpr (Nat.le_mul_of_pos_left c hs); omega)
    simp only [tripleCost, taken, Bool.false_eq_true, ↓reduceIte, Nat.zero_mul, zero_ceilDiv, Nat.add_zero,
      Nat.cast_zero, Int.sub_zero] at h
    rw [h, ceilDiv_ceilDiv hs]
    simp [Ibd.total]
    omega

/-- The data blocks whose pointer blocks push the count over the doubly indirect level. -/
def inBand (s d : Nat) : Prop := 12 + s * s < d ∧ d ≤ 12 + s + s * s

instance (s d : Nat) : Decidable (inBand s d) := inferInstanceAs (Decidable (_ ∧ _))

theorem total_inclusive (hs : 0 < s) (hd : ¬inBand s d) :
    (distLevels s (d + indirectCount s d) true).total = indirectCount s d := by
  unfold indirectCount distLevels
  unfold inBand at hd
  by_cases h₁ : d ≤ 12
  · rw [if_pos h₁, if_neg (by omega)]
    rfl
  by_cases h₂ : d ≤ 12 + s
  · rw [if_neg h₁, if_pos h₂, if_pos (by omega)]
    simp only [↓reduceIte]
    rw [if_neg (by omega)]
    rfl
  by_cases h₃ : d ≤ 12 + s + s * s
  · rw [if_neg h₁, if_neg h₂, if_pos h₃]
    have hc : d - 12 - s ≤ s * s - s := by omega
    have hb := ceilDiv_bounds hs (d - 12 - s)
    generalize hn : (d - 12 - s) ⌈/⌉ s = n at hb
    have hns : s * n ≤ s * s := by
      have : n ≤ s - 1 := by
        rw [← hn, ceilDiv_le_iff_le_mul hs, Nat.mul_sub, Nat.mul_one]
        exact hc
      exact Nat.mul_le_mul_left s (by omega)
    have hn' : n ≤ s - 1 := by
      rw [← hn, ceilDiv_le_iff_le_mul hs, Nat.mul_sub, Nat.mul_one]
      exact hc
    have hss : s ≤ s * s := Nat.le_mul_of_pos_left s hs
    rw [if_pos (by omega)]
    simp only [↓reduceIte]
    rw [if_pos (by omega), if_neg (by push_cast; omega)]
    rw [show ((d + (2 + n) : Nat) : Int) - 12 - 1 - s - 1 = ((d - 12 - s + n : Nat) : Int) by omega, Int.toNat_natCast,
      distDoubly_eq hs true _ _ _ le_rfl]
    have hceil : (d - 12 - s + n) ⌈/⌉ (s + taken true) = n := by
      apply ceilDiv_eq_of (by simp [taken])
      · simp only [taken, ↓reduceIte, Nat.add_mul, Nat.one_mul]
        omega
      · simp only [taken, ↓reduceIte, Nat.add_mul, Nat.one_mul]
        omega
    rw [hceil]
    simp [Ibd.total]
  · rw [if_neg h₁, if_neg h₂, if_neg h₃]
    have hdc : d = 12 + s + s * s + (d - 12 - s - s * s) := by omega
    generalize d - 12 - s - s * s = c at hdc
    rw [if_pos (by omega)]
    simp only [↓reduceIte]
    rw [if_pos (by omega), if_pos (by push_cast; omega)]
    have hcount : ((d + (s + 3 + c ⌈/⌉ (s * s) + c ⌈/⌉ s) : Nat) : Int) - 12 - 1 - s - 1 - (s * s : Nat) - s - 1 =
        ((c + (c ⌈/⌉ s + (c ⌈/⌉ s) ⌈/⌉ s) : Nat) : Int) := by
      rw [ceilDiv_ceilDiv hs]
      omega
    rw [hcount, Int.toNat_natCast]
    have hb := ceilDiv_bounds hs c
    generalize hn : c ⌈/⌉ s = n at hb
    have h := distTriply_eq (c := c + (n + n ⌈/⌉ s)) (n := n) hs true
      (by simp only [tripleCost, taken, ↓reduceIte, Nat.one_mul, Nat.mul_comm n s]; omega)
      (by
        intro k hk
        have h₀ : s * k < c := (lt_ceilDiv hs).mp (by omega)
        have h₁ : k ⌈/⌉ s ≤ n ⌈/⌉ s := by
          rw [ceilDiv_le_iff_le_mul hs]
          have := (ceilDiv_bounds hs n).1
          omega
        simp only [tripleCost, taken, ↓reduceIte, Nat.one_mul, Nat.mul_comm k s]
        omega) s (c + (n + n ⌈/⌉ s)) 0 (Nat.zero_le _) (by omega)
    simp only [tripleCost, taken, ↓reduceIte, Nat.zero_mul, zero_ceilDiv, Nat.add_zero, Nat.mul_zero, Nat.cast_zero,
      Int.sub_zero] at h
    rw [h, ← hn, ceilDiv_ceilDiv hs]
    simp [Ibd.total]
    omega

theorem total_inclusive_band (hs : 0 < s) (hd : inBand s d) :
    indirectCount s d = s + 2 ∧ (distLevels s (d + indirectCount s d) true).total = s + 3 := by
  obtain ⟨h₁, h₂⟩ := hd
  have hss : s ≤ s * s := Nat.le_mul_of_pos_left s hs
  have hceil : (d - 12 - s) ⌈/⌉ s = s := ceilDiv_eq_of hs (by omega) (by omega)
  have hcount : indirectCount s d = s + 2 := by
    unfold indirectCount
    rw [if_neg (by omega), if_neg (by omega), if_pos h₂, hceil, Nat.add_comm]
  refine ⟨hcount, ?_⟩
  rw [hcount]
  unfold distLevels
  rw [if_pos (by omega)]
  simp only [↓reduceIte]
  rw [if_pos (by omega), if_pos (by push_cast; omega)]
  have hneg : ((d + (s + 2) : Nat) : Int) - 12 - 1 - s - 1 - (s * s : Nat) - s - 1 ≤ 0 := by
    push_cast
    omega
  rw [Int.toNat_of_nonpos hneg]
  simp [distTriply, Ibd.total]
  omega

theorem mem_indirectNodes (hs : 0 < s) {n : Node} : n ∈ indirectNodes s d ↔
    match n with
    | .single => 12 < d
    | .double => 12 + s < d
    | .doubleLeaf j => j < (min d (12 + s + s * s) - 12 - s) ⌈/⌉ s
    | .triple => 12 + s + s * s < d
    | .tripleMid m => m < (d - 12 - s - s * s) ⌈/⌉ (s * s)
    | .tripleLeaf k => k < (d - 12 - s - s * s) ⌈/⌉ s := by
  have hss : 0 < s * s := Nat.mul_pos hs hs
  unfold indirectNodes
  simp only [Finset.mem_biUnion, Finset.mem_range, List.mem_toFinset]
  constructor
  · rintro ⟨i, hi, hn⟩
    unfold path at hn
    split at hn
    · simp at hn
    split at hn
    · obtain rfl := List.mem_singleton.mp hn
      dsimp only
      omega
    split at hn
    · simp only [List.mem_cons, List.not_mem_nil, or_false] at hn
      rcases hn with rfl | rfl
      · dsimp only
        omega
      · dsimp only
        rw [lt_ceilDiv hs]
        have := Nat.mul_div_le (i - 12 - s) s
        omega
    · simp only [List.mem_cons, List.not_mem_nil, or_false] at hn
      rcases hn with rfl | rfl | rfl
      · dsimp only
        omega
      · dsimp only
        rw [lt_ceilDiv hss]
        have := Nat.mul_div_le (i - 12 - s - s * s) (s * s)
        omega
      · dsimp only
        rw [lt_ceilDiv hs]
        have := Nat.mul_div_le (i - 12 - s - s * s) s
        omega
  · intro h
    cases n with
    | single =>
      exact ⟨12, h, by simp [path, hs]⟩
    | double =>
      refine ⟨12 + s, h, ?_⟩
      unfold path
      rw [if_neg (by omega), if_neg (by omega), if_pos (by omega)]
      simp
    | doubleLeaf j =>
      dsimp only at h
      rw [lt_ceilDiv hs] at h
      refine ⟨12 + s + s * j, by omega, ?_⟩
      unfold path
      rw [if_neg (by omega), if_neg (by omega), if_pos (by omega),
        show 12 + s + s * j - 12 - s = s * j by omega, Nat.mul_div_cancel_left j hs]
      simp
    | triple =>
      refine ⟨12 + s + s * s, h, ?_⟩
      unfold path
      rw [if_neg (by omega), if_neg (by omega), if_neg (by omega)]
      simp
    | tripleMid m =>
      dsimp only at h
      rw [lt_ceilDiv hss] at h
      refine ⟨12 + s + s * s + s * s * m, by omega, ?_⟩
      unfold path
      rw [if_neg (by omega), if_neg (by omega), if_neg (by omega),
        show 12 + s + s * s + s * s * m - 12 - s - s * s = s * s * m by omega, Nat.mul_div_cancel_left m hss]
      simp
    | tripleLeaf k =>
      dsimp only at h
      rw [lt_ceilDiv hs] at h
      refine ⟨12 + s + s * s + s * k, by omega, ?_⟩
      unfold path
      rw [if_neg (by omega), if_neg (by omega), if_neg (by omega),
        show 12 + s + s * s + s * k - 12 - s - s * s = s * k by omega, Nat.mul_div_cancel_left k hs]
      simp

theorem card_indirectNodes (hs : 0 < s) (d : Nat) : (indirectNodes s d).card = indirectCount s d := by
  have hss : 0 < s * s := Nat.mul_pos hs hs
  have hzero : ∀ {a b : Nat}, 0 < a → (b ⌈/⌉ a = 0 ↔ b = 0) := by
    intro a b ha
    rw [← Nat.le_zero, ceilDiv_le_iff_le_mul ha]
    omega
  unfold indirectCount
  by_cases h₁ : d ≤ 12
  · rw [if_pos h₁, Finset.card_eq_zero, Finset.eq_empty_iff_forall_notMem]
    intro n
    rw [mem_indirectNodes hs]
    cases n <;> dsimp only
    · omega
    · omega
    · rw [(hzero hs).mpr (by omega)]
      omega
    · omega
    · rw [(hzero hss).mpr (by omega)]
      omega
    · rw [(hzero hs).mpr (by omega)]
      omega
  by_cases h₂ : d ≤ 12 + s
  · rw [if_neg h₁, if_pos h₂, Finset.card_eq_one]
    refine ⟨.single, Finset.ext fun n => ?_⟩
    rw [mem_indirectNodes hs]
    cases n <;> simp only [Finset.mem_singleton, reduceCtorEq, iff_false, iff_true]
    · omega
    · omega
    · rw [(hzero hs).mpr (by omega)]
      omega
    · omega
    · rw [(hzero hss).mpr (by omega)]
      omega
    · rw [(hzero hs).mpr (by omega)]
      omega
  by_cases h₃ : d ≤ 12 + s + s * s
  · rw [if_neg h₁, if_neg h₂, if_pos h₃]
    have heq : indirectNodes s d =
        {.single, .double} ∪ (Finset.range ((d - 12 - s) ⌈/⌉ s)).image .doubleLeaf := by
      ext n
      rw [mem_indirectNodes hs]
      cases n <;> simp [Nat.min_eq_left h₃]
      · omega
      · omega
      · omega
      · rw [(hzero hss).mpr (by omega)]
        omega
      · rw [(hzero hs).mpr (by omega)]
        omega
    rw [heq, Finset.card_union_of_disjoint (by simp [Finset.disjoint_left]),
      Finset.card_image_of_injective _ (fun a b h => by simpa using h), Finset.card_range]
    rfl
  · rw [if_neg h₁, if_neg h₂, if_neg h₃]
    have hdouble : (min d (12 + s + s * s) - 12 - s) ⌈/⌉ s = s := ceilDiv_eq_of hs (by omega) (by omega)
    have heq : indirectNodes s d =
        {.single, .double, .triple} ∪ ((Finset.range s).image .doubleLeaf ∪
          ((Finset.range ((d - 12 - s - s * s) ⌈/⌉ (s * s))).image .tripleMid ∪
            (Finset.range ((d - 12 - s - s * s) ⌈/⌉ s)).image .tripleLeaf)) := by
      ext n
      rw [mem_indirectNodes hs]
      cases n <;> simp [hdouble]
      · omega
      · omega
      · omega
    rw [heq, Finset.card_union_of_disjoint (by simp [Finset.disjoint_left]),
      Finset.card_union_of_disjoint (by simp [Finset.disjoint_left]),
      Finset.card_union_of_disjoint (by simp [Finset.disjoint_left]),
      Finset.card_image_of_injective _ (fun a b h => by simpa using h),
      Finset.card_image_of_injective _ (fun a b h => by simpa using h),
      Finset.card_image_of_injective _ (fun a b h => by simpa using h), Finset.card_range, Finset.card_range,
      Finset.card_range, show ({.single, .double, .triple} : Finset Node).card = 3 from rfl]
    omega

section
variable (sb : Superblock) {d : Nat}
include sb

theorem Superblock.blockSize_pos : 1024 ≤ sb.blockSize :=
  Nat.le_mul_of_pos_right _ (Nat.two_pow_pos _)

theorem Superblock.singly_pos : 0 < sb.singly := by
  have := sb.blockSize_pos
  unfold Superblock.singly
  omega

theorem blocksDist_inum (n : Nat) (inclusive : Bool) :
    (blocksDist sb n inclusive).inum = (distLevels sb.singly (n % 2 ^ 32) inclusive).total := rfl

theorem exclusive_inum (hd : d < 2 ^ 32) : (blocksDist sb d false).inum = indirectCount sb.singly d := by
  rw [blocksDist_inum, Nat.mod_eq_of_lt hd, total_exclusive sb.singly_pos]

theorem inclusive_dnum {n : Nat} (hn : n < 2 ^ 32) : (blocksDist sb n true).dnum = n - (blocksDist sb n true).inum := by
  simp only [blocksDist, ↓reduceIte, Nat.mod_eq_of_lt hn]

theorem inclusive_of_not_band (hn : d + indirectCount sb.singly d < 2 ^ 32) (hd : ¬inBand sb.singly d) :
    (blocksDist sb (d + indirectCount sb.singly d) true).inum = indirectCount sb.singly d ∧
      (blocksDist sb (d + indirectCount sb.singly d) true).dnum = d := by
  have h : (blocksDist sb (d + indirectCount sb.singly d) true).inum = indirectCount sb.singly d := by
    rw [blocksDist_inum, Nat.mod_eq_of_lt hn, total_inclusive sb.singly_pos hd]
  exact ⟨h, by rw [inclusive_dnum sb hn, h]; omega⟩

theorem inclusive_of_band (hn : d + indirectCount sb.singly d < 2 ^ 32) (hd : inBand sb.singly d) :
    (blocksDist sb (d + indirectCount sb.singly d) true).inum = indirectCount sb.singly d + 1 ∧
      (blocksDist sb (d + indirectCount sb.singly d) true).dnum = d - 1 := by
  obtain ⟨hk, ht⟩ := total_inclusive_band sb.singly_pos hd
  have h : (blocksDist sb (d + indirectCount sb.singly d) true).inum = indirectCount sb.singly d + 1 := by
    rw [blocksDist_inum, Nat.mod_eq_of_lt hn, ht, hk]
  exact ⟨h, by rw [inclusive_dnum sb hn, h]; omega⟩

end

/-- The two counts are inverse to each other exactly when they fit 32 bits and `d` is not among the last data blocks of
the doubly indirect level. -/
theorem dist_roundtrip_iff (sb : Superblock) (d : Nat) :
    ((blocksDist sb (d + (blocksDist sb d false).inum) true).dnum = d ∧
      (blocksDist sb (d + (blocksDist sb d false).inum) true).inum = (blocksDist sb d false).inum ∧
      (blocksDist sb d false).inum = (indirectNodes sb.singly d).card) ↔
    d + (indirectNodes sb.singly d).card < 2 ^ 32 ∧
      ¬(12 + sb.singly * sb.singly < d ∧ d ≤ 12 + sb.singly + sb.singly * sb.singly) := by
  rw [card_indirectNodes sb.singly_pos]
  constructor
  · rintro ⟨hdnum, hinum, hcount⟩
    rw [hcount] at hdnum hinum
    have hn : d + indirectCount sb.singly d < 2 ^ 32 := by
      rcases Nat.eq_zero_or_pos d with rfl | hpos
      · simp [indirectCount]
      · have hsub : (blocksDist sb (d + indirectCount sb.singly d) true).dnum =
            (d + indirectCount sb.singly d) % 2 ^ 32 - (blocksDist sb (d + indirectCount sb.singly d) true).inum := by
          simp only [blocksDist, ↓reduceIte]
        have := Nat.mod_lt (d + indirectCount sb.singly d) (Nat.two_pow_pos 32)
        omega
    refine ⟨hn, fun hband => ?_⟩
    have := (inclusive_of_band sb hn hband).1
    omega
  · rintro ⟨hn, hband⟩
    rw [exclusive_inum sb (by omega)]
    obtain ⟨h₁, h₂⟩ := inclusive_of_not_band sb hn hband
    exact ⟨h₂, h₁, rfl⟩

def smallVolume : Superblock where
  totalBlocks := 16385
  firstDataBlock := 1
  logBlockSize := 0
  blocksPerGroup := 8192
  inodesPerGroup := 2048
  inodeSize := 128
  featuresRequired := REQ_DIRENT_TYPE
  log_le := by decide
  first_lt := by decide
  blocks_pos := by decide
  inodes_pos := by decide
  inodeSize_ge := by decide
  inodeSize_dvd := by decide
  table_le := by decide

/-- With blocks of 1 KiB, a full doubly indirect level of 65804 data blocks is not found again. -/
theorem dist_full_double_level :
    ¬((blocksDist smallVolume (65804 + (blocksDist smallVolume 65804 false).inum) true).dnum = 65804 ∧
      (blocksDist smallVolume (65804 + (blocksDist smallVolume 65804 false).inum) true).inum =
        (blocksDist smallVolume 65804 false).inum ∧
      (blocksDist smallVolume 65804 false).inum = (indirectNodes smallVolume.singly 65804).card) := by
  have hband : inBand smallVolume.singly 65804 := by decide
  have hk := (total_inclusive_band smallVolume.singly_pos hband).1
  have hs : smallVolume.singly = 256 := rfl
  have hn : 65804 + indirectCount smallVolume.singly 65804 < 2 ^ 32 := by omega
  rintro ⟨hdnum, -, -⟩
  rw [exclusive_inum smallVolume (by decide), (inclusive_of_band smallVolume hn hband).2] at hdnum
  omega

end Novino.Ext2
