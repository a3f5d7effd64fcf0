import Novino.Lib.Bytes

/-! Bitmaps stored in byte buffers: bit `p` is bit `p % 8` of byte `p / 8`. -/

namespace Novino.Block

variable (b : Block) (p : Nat)

def bit : Bool := (b (p / 8)).getLsbD (p % 8)

/-- `bitmap[p/8] |= (1 << (p%8))`. -/
def setBit : Block := fun i => if i = p / 8 then b i ||| (1#8 <<< (p % 8)) else b i

/-- `bitmap[p/8] &= ~(1 << (p%8))`. -/
def clrBit : Block := fun i => if i = p / 8 then b i &&& ~~~(1#8 <<< (p % 8)) else b i

def setBits (b : Block) (p : Nat) : Nat → Block
  | 0 => b
  | n + 1 => (b.setBit p).setBits (p + 1) n

def clrBits (b : Block) (p : Nat) : Nat → Block
  | 0 => b
  | n + 1 => (b.clrBit p).clrBits (p + 1) n

theorem getLsbD_one_shiftLeft {j k : Nat} (hk : k < 8) : (1#8 <<< j).getLsbD k = decide (k = j) := by
  rw [← BitVec.twoPow_eq, BitVec.getLsbD_eq_getElem hk, BitVec.getElem_twoPow]

theorem bit_setBit (q : Nat) : (b.setBit p).bit q = (b.bit q || decide (q = p)) := by
  have hq : q % 8 < 8 := Nat.mod_lt _ (by omega)
  unfold bit setBit
  by_cases h : q / 8 = p / 8
  · rw [if_pos h, BitVec.getLsbD_or, getLsbD_one_shiftLeft hq]
    congr 1
    apply decide_eq_decide.mpr
    omega
  · have : q ≠ p := fun heq => h (by rw [heq])
    simp [h, this]

theorem bit_clrBit (q : Nat) : (b.clrBit p).bit q = (b.bit q && !decide (q = p)) := by
  have hq : q % 8 < 8 := Nat.mod_lt _ (by omega)
  unfold bit clrBit
  by_cases h : q / 8 = p / 8
  · rw [if_pos h, BitVec.getLsbD_and, BitVec.getLsbD_not, getLsbD_one_shiftLeft hq]
    have : decide (q % 8 = p % 8) = decide (q = p) := by
      apply decide_eq_decide.mpr
      omega
    simp [hq, this]
  · have : q ≠ p := fun heq => h (by rw [heq])
    simp [h, this]

theorem bit_setBits (n q : Nat) :
    (b.setBits p n).bit q = (b.bit q || decide (p ≤ q ∧ q < p + n)) := by
  induction n generalizing b p with
  | zero =>
    rw [setBits, decide_eq_false (by omega), Bool.or_false]
  | succ n ih =>
    rw [setBits, ih, bit_setBit, Bool.or_assoc, ← Bool.decide_or]
    congr 1
    apply decide_eq_decide.mpr
    omega

theorem bit_clrBits (n q : Nat) :
    (b.clrBits p n).bit q = (b.bit q && !decide (p ≤ q ∧ q < p + n)) := by
  induction n generalizing b p with
  | zero =>
    rw [clrBits, decide_eq_false (by omega), Bool.not_false, Bool.and_true]
  | succ n ih =>
    rw [clrBits, ih, bit_clrBit, Bool.and_assoc, ← Bool.not_or, ← Bool.decide_or]
    congr 2
    apply decide_eq_decide.mpr
    omega

theorem byte_eq_ff_iff {b : Block} {i : Nat} : b i = 0xFF#8 ↔ ∀ j < 8, b.bit (8 * i + j) = true := by
  have hff : ∀ j : Fin 8, (0xFF#8).getLsbD j = true := by decide
  have hbit : ∀ j < 8, b.bit (8 * i + j) = (b i).getLsbD j := by
    intro j hj
    unfold bit
    rw [show (8 * i + j) / 8 = i by omega, show (8 * i + j) % 8 = j by omega]
  constructor
  · intro h j hj
    rw [hbit j hj, h]
    exact hff ⟨j, hj⟩
  · intro h
    apply BitVec.eq_of_getLsbD_eq
    intro j hj
    rw [← hbit j hj, h j hj]
    exact (hff ⟨j, hj⟩).symm

end Novino.Block
