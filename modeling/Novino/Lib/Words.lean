import Novino.Lib.Counts

/-! Bitmaps stored in words of 64 bits: bit `p` is bit `p % 64` of word `p / 64`. -/

namespace Novino

abbrev Words := Nat → BitVec 64

namespace Words

def bit (b : Words) (p : Nat) : Bool := (b (p / 64)).getLsbD (p % 64)

/-- `bitmap[p/64] |= (1UL << (p%64))`. -/
def setBit (b : Words) (p : Nat) : Words := Function.update b (p / 64) (b (p / 64) ||| (1#64 <<< (p % 64)))

/-- `bitmap[p/64] &= ~(1UL << (p%64))`. -/
def clrBit (b : Words) (p : Nat) : Words := Function.update b (p / 64) (b (p / 64) &&& ~~~(1#64 <<< (p % 64)))

/-- `__builtin_ctzl` of a word that is not 0: its lowest set bit. -/
def ctz (w : BitVec 64) : Nat := ((List.range 64).find? w.getLsbD).getD 64

def ones (b : Words) (n : Nat) : Nat := (List.range n).countP b.bit

variable (b : Words)

theorem getLsbD_one_shiftLeft {j k : Nat} (hk : k < 64) : (1#64 <<< j).getLsbD k = decide (k = j) := by
  rw [← BitVec.twoPow_eq, BitVec.getLsbD_eq_getElem hk, BitVec.getElem_twoPow]

theorem bit_setBit (p q : Nat) : (b.setBit p).bit q = (b.bit q || decide (q = p)) := by
  have hq : q % 64 < 64 := Nat.mod_lt _ (by omega)
  unfold bit setBit
  by_cases h : q / 64 = p / 64
  · rw [h, Function.update_self, BitVec.getLsbD_or, getLsbD_one_shiftLeft hq]
    congr 1
    apply decide_eq_decide.mpr
    omega
  · have : q ≠ p := fun heq => h (by rw [heq])
    simp [h, this]

theorem bit_clrBit (p q : Nat) : (b.clrBit p).bit q = (b.bit q && !decide (q = p)) := by
  have hq : q % 64 < 64 := Nat.mod_lt _ (by omega)
  unfold bit clrBit
  by_cases h : q / 64 = p / 64
  · rw [h, Function.update_self, BitVec.getLsbD_and, BitVec.getLsbD_not, getLsbD_one_shiftLeft hq]
    have : decide (q % 64 = p % 64) = decide (q = p) := by
      apply decide_eq_decide.mpr
      omega
    simp [hq, this]
  · have : q ≠ p := fun heq => h (by rw [heq])
    simp [h, this]

theorem bit_word {i j : Nat} (hj : j < 64) : b.bit (64 * i + j) = (b i).getLsbD j := by
  unfold bit
  rw [show (64 * i + j) / 64 = i by omega, show (64 * i + j) % 64 = j by omega]

theorem word_eq_zero_iff {i : Nat} : b i = 0 ↔ ∀ p, p / 64 = i → b.bit p = false := by
  constructor
  · rintro h p rfl
    rw [bit, h]
    exact BitVec.getLsbD_zero
  · intro h
    refine BitVec.eq_of_getLsbD_eq fun j hj => ?_
    rw [← bit_word b hj, h _ (by omega)]
    exact BitVec.getLsbD_zero.symm

theorem ctz_spec {w : BitVec 64} (hw : w ≠ 0) :
    ctz w < 64 ∧ w.getLsbD (ctz w) = true ∧ ∀ j < ctz w, w.getLsbD j = false := by
  unfold ctz
  cases hf : (List.range 64).find? w.getLsbD with
  | none =>
    refine absurd (BitVec.eq_of_getLsbD_eq fun j hj => ?_) hw
    rw [eq_false_of_ne_true (List.find?_eq_none.mp hf j (List.mem_range.mpr hj))]
    exact BitVec.getLsbD_zero.symm
  | some j =>
    obtain ⟨hbit, hlt, hmin⟩ := List.find?_range_eq_some.mp hf
    exact ⟨List.mem_range.mp hlt, hbit, fun k hk => by simpa using hmin k hk⟩

theorem ones_setBit {p n : Nat} (hp : p < n) (h : b.bit p = false) : (b.setBit p).ones n = b.ones n + 1 := by
  have hchange := Counts.countP_change (p := b.bit) (q := (b.setBit p).bit) (List.nodup_range (n := n))
    (List.mem_range.mpr hp) fun q _ hq => by simp [bit_setBit, hq]
  have hone : (b.setBit p).bit p = true := by simp [bit_setBit]
  rwa [h, hone] at hchange

theorem ones_clrBit {p n : Nat} (hp : p < n) (h : b.bit p = true) : (b.clrBit p).ones n + 1 = b.ones n := by
  have hchange := Counts.countP_change (p := b.bit) (q := (b.clrBit p).bit) (List.nodup_range (n := n))
    (List.mem_range.mpr hp) fun q _ hq => by simp [bit_clrBit, hq]
  have hzero : (b.clrBit p).bit p = false := by simp [bit_clrBit]
  rwa [h, hzero] at hchange

theorem ones_le (n : Nat) : b.ones n ≤ n := by
  unfold ones
  exact List.countP_le_length.trans (by rw [List.length_range])

theorem ones_eq {m n : Nat} (hmn : m ≤ n) (h : ∀ p, m ≤ p → b.bit p = false) : b.ones n = b.ones m := by
  obtain ⟨k, rfl⟩ := Nat.exists_eq_add_of_le hmn
  have hrest : ((List.range k).map (m + ·)).countP b.bit = 0 := by
    refine List.countP_eq_zero.mpr fun p hp => ?_
    obtain ⟨q, -, rfl⟩ := List.mem_map.mp hp
    simp [h (m + q) (Nat.le_add_right m q)]
  rw [ones, List.range_add, List.countP_append, hrest]
  rfl

theorem ones_eq_self {n : Nat} (h : ∀ p < n, b.bit p = true) : b.ones n = n := by
  unfold ones
  rw [List.countP_eq_length.mpr fun p hp => h p (List.mem_range.mp hp), List.length_range]

end Words

end Novino
