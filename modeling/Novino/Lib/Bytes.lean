import Mathlib.Data.Nat.Bitwise

/-! Byte buffers, as functions from offsets to bytes, and the little-endian fields stored in them. -/

namespace Novino

abbrev Byte := BitVec 8

abbrev Block := Nat → Byte

namespace Block

def zero : Block := fun _ => 0

def rd8 (b : Block) (o : Nat) : Nat := (b o).toNat
def rd16 (b : Block) (o : Nat) : Nat := b.rd8 o + 256 * b.rd8 (o + 1)
def rd32 (b : Block) (o : Nat) : Nat := b.rd16 o + 65536 * b.rd16 (o + 2)
def rd64 (b : Block) (o : Nat) : Nat := b.rd32 o + 4294967296 * b.rd32 (o + 4)

def wr8 (b : Block) (o v : Nat) : Block := fun i => if i = o then BitVec.ofNat 8 v else b i
def wr16 (b : Block) (o v : Nat) : Block := (b.wr8 o v).wr8 (o + 1) (v / 256)
def wr32 (b : Block) (o v : Nat) : Block := (b.wr16 o v).wr16 (o + 2) (v / 65536)

variable (b : Block) (o : Nat)

def rdBytes (n : Nat) : List Byte := (List.range n).map fun i => b (o + i)

def wrBytes (l : List Byte) : Block :=
  fun i => if o ≤ i ∧ i < o + l.length then l.getD (i - o) 0 else b i

def copy (src : Block) (n : Nat) : Block :=
    fun i => if o ≤ i ∧ i < o + n then src (i - o) else b i

def drop (n : Nat) : Block := fun i => b (n + i)

def clear (n : Nat) : Block := fun i => if o ≤ i ∧ i < o + n then 0 else b i

def Agree (b' : Block) (lo hi : Nat) : Prop := ∀ i, lo ≤ i → i < hi → b i = b' i

theorem Agree.refl (lo hi : Nat) : Agree b b lo hi := fun _ _ _ => rfl

theorem Agree.trans {b b' b'' : Block} {lo hi : Nat} (h : Agree b b' lo hi) (h' : Agree b' b'' lo hi) :
    Agree b b'' lo hi :=
  fun i h₁ h₂ => (h i h₁ h₂).trans (h' i h₁ h₂)

theorem Agree.mono {b b' : Block} {lo hi lo' hi' : Nat} (h : Agree b b' lo hi) (hlo : lo ≤ lo') (hhi : hi' ≤ hi) :
    Agree b b' lo' hi' :=
  fun i h₁ h₂ => h i (by omega) (by omega)

theorem Agree.rd8 {b b' : Block} {lo hi : Nat} (h : Agree b b' lo hi) {o : Nat} (h₁ : lo ≤ o) (h₂ : o < hi) :
    b.rd8 o = b'.rd8 o := by
  rw [Block.rd8, Block.rd8, h o h₁ h₂]

theorem Agree.rd16 {b b' : Block} {lo hi : Nat} (h : Agree b b' lo hi) {o : Nat} (h₁ : lo ≤ o) (h₂ : o + 2 ≤ hi) :
    b.rd16 o = b'.rd16 o := by
  rw [Block.rd16, Block.rd16, h.rd8 h₁ (by omega), h.rd8 (by omega) (by omega)]

theorem Agree.rd32 {b b' : Block} {lo hi : Nat} (h : Agree b b' lo hi) {o : Nat} (h₁ : lo ≤ o) (h₂ : o + 4 ≤ hi) :
    b.rd32 o = b'.rd32 o := by
  rw [Block.rd32, Block.rd32, h.rd16 h₁ (by omega), h.rd16 (by omega) (by omega)]

theorem agree_wr8 {b : Block} {o v lo hi : Nat} (h : hi ≤ o ∨ o + 1 ≤ lo) : Agree (b.wr8 o v) b lo hi := by
  intro i h₁ h₂
  have : i ≠ o := by omega
  simp [wr8, this]

theorem agree_wr16 {b : Block} {o v lo hi : Nat} (h : hi ≤ o ∨ o + 2 ≤ lo) : Agree (b.wr16 o v) b lo hi :=
  (agree_wr8 (by omega)).trans (agree_wr8 (by omega))

theorem agree_wr32 {b : Block} {o v lo hi : Nat} (h : hi ≤ o ∨ o + 4 ≤ lo) : Agree (b.wr32 o v) b lo hi :=
  (agree_wr16 (by omega)).trans (agree_wr16 (by omega))

theorem rd8_lt : b.rd8 o < 256 := (b o).isLt

theorem rd16_lt : b.rd16 o < 65536 := by
  have := b.rd8_lt o
  have := b.rd8_lt (o + 1)
  unfold rd16
  omega

theorem rd32_lt : b.rd32 o < 4294967296 := by
  have := b.rd16_lt o
  have := b.rd16_lt (o + 2)
  unfold rd32
  omega

theorem rd64_lt : b.rd64 o < 18446744073709551616 := by
  have := b.rd32_lt o
  have := b.rd32_lt (o + 4)
  unfold rd64
  omega

@[simp] theorem rd8_wr8 (v : Nat) : (b.wr8 o v).rd8 o = v % 256 := by simp [rd8, wr8]

@[simp] theorem rd16_wr16 (v : Nat) : (b.wr16 o v).rd16 o = v % 65536 := by
  have h : ((b.wr8 o v).wr8 (o + 1) (v / 256)).rd8 o = v % 256 := by
    have hlo : Agree ((b.wr8 o v).wr8 (o + 1) (v / 256)) (b.wr8 o v) o (o + 1) := agree_wr8 (by omega)
    rw [hlo.rd8 (by omega) (by omega), rd8_wr8]
  rw [rd16, wr16, h, rd8_wr8]
  omega

@[simp] theorem rd32_wr32 (v : Nat) : (b.wr32 o v).rd32 o = v % 4294967296 := by
  have h : ((b.wr16 o v).wr16 (o + 2) (v / 65536)).rd16 o = v % 65536 := by
    have hlo : Agree ((b.wr16 o v).wr16 (o + 2) (v / 65536)) (b.wr16 o v) o (o + 2) := agree_wr16 (by omega)
    rw [hlo.rd16 (by omega) (by omega), rd16_wr16]
  rw [rd32, wr32, h, rd16_wr16]
  omega

theorem wr16_rd16 : b.wr16 o (b.rd16 o) = b := by
  funext i
  have h₀ := b.rd8_lt o
  have h₁ : (b (o + 1)).toNat < 256 := b.rd8_lt (o + 1)
  have hlo : BitVec.ofNat 8 (b.rd16 o) = b o := by
    apply BitVec.eq_of_toNat_eq
    simp only [BitVec.toNat_ofNat, rd16, rd8] at h₀ ⊢
    omega
  have hhi : BitVec.ofNat 8 (b.rd16 o / 256) = b (o + 1) := by
    apply BitVec.eq_of_toNat_eq
    simp only [BitVec.toNat_ofNat, rd16, rd8] at h₀ ⊢
    omega
  unfold wr16 wr8
  split
  · rename_i h
    rw [h, hhi]
  · split
    · rename_i h
      rw [h, hlo]
    · rfl

@[simp] theorem length_rdBytes (n : Nat) : (b.rdBytes o n).length = n := by simp [rdBytes]

end Block
end Novino
