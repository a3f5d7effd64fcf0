import Mathlib.Tactic.Positivity
import Novino.Theorems.View
import Novino.Ext2.Alloc

/-! The metadata of a volume as an operation sees it: group descriptors, bitmaps and inode tables, in blocks of their
    own that no operation moves (`Layout`). -/

namespace Novino.Ext2
open State

/-! ### Group descriptors -/

namespace Superblock
variable (sb : Superblock) (V : Image) (g : Nat)

def bgd16 (o : Nat) : Nat := (V (sb.bgdAddr g).block).rd16 ((sb.bgdAddr g).off + o)
def bgd32 (o : Nat) : Nat := (V (sb.bgdAddr g).block).rd32 ((sb.bgdAddr g).off + o)

def blockBitmap : Nat := sb.bgd32 V g Bgd.blockBitmap
def inodeBitmap : Nat := sb.bgd32 V g Bgd.inodeBitmap
def inodeTable : Nat := sb.bgd32 V g Bgd.inodeTable
def groupFreeBlocks : Nat := sb.bgd16 V g Bgd.freeBlocks
def groupFreeInodes : Nat := sb.bgd16 V g Bgd.freeInodes

def blockBit (p : Nat) : Bool := (V (sb.blockBitmap V g)).bit p

def inodeBit (p : Nat) : Bool := (V (sb.inodeBitmap V g)).bit p

def FreeBlock (b : Nat) : Prop :=
  sb.firstDataBlock ≤ b ∧
    sb.blockBit V ((b - sb.firstDataBlock) / sb.blocksPerGroup) ((b - sb.firstDataBlock) % sb.blocksPerGroup) = false

def groups : Nat := (sb.totalBlocks - sb.firstDataBlock + sb.blocksPerGroup - 1) / sb.blocksPerGroup

theorem bgdAddr_sep {g g' : Nat} (h : g ≠ g') : (sb.bgdAddr g).block ≠ (sb.bgdAddr g').block ∨
    (sb.bgdAddr g).off + 32 ≤ (sb.bgdAddr g').off ∨ (sb.bgdAddr g').off + 32 ≤ (sb.bgdAddr g).off := by
  by_cases hb : g / sb.bgdsPerBlock = g' / sb.bgdsPerBlock
  · right
    have h₁ := Nat.div_add_mod g sb.bgdsPerBlock
    have h₂ := Nat.div_add_mod g' sb.bgdsPerBlock
    rw [hb] at h₁
    simp only [bgdAddr]
    omega
  · left
    simp only [bgdAddr]
    omega

end Superblock

/-! ### The layout of a volume -/

inductive Area where
  /-- The `i`-th block of group descriptors. -/
  | descriptors (i : Nat)
  | blockBitmap (g : Nat)
  | inodeBitmap (g : Nat)
  /-- The `k`-th block of the inode table of group `g`. -/
  | inodeTable (g k : Nat)

def Area.Valid (sb : Superblock) : Area → Prop
  | descriptors i => ∃ g < sb.groups, g / sb.bgdsPerBlock = i
  | blockBitmap g => g < sb.groups
  | inodeBitmap g => g < sb.groups
  | inodeTable g k => g < sb.groups ∧ k * sb.blockSize < sb.inodesPerGroup * sb.inodeSize

structure Places where
  blockBitmap : Nat → Nat
  inodeBitmap : Nat → Nat
  inodeTable : Nat → Nat

def Places.block (sb : Superblock) (P : Places) : Area → Nat
  | .descriptors i => sb.bgdsStart + i
  | .blockBitmap g => P.blockBitmap g
  | .inodeBitmap g => P.inodeBitmap g
  | .inodeTable g k => P.inodeTable g + k

/-- Where a volume has its metadata: every area has blocks of its own. -/
structure Layout (sb : Superblock) extends Places where
  inj : ∀ a a' : Area, a.Valid sb → a'.Valid sb → toPlaces.block sb a = toPlaces.block sb a' → a = a'
  lt : ∀ a : Area, a.Valid sb → toPlaces.block sb a < sb.totalBlocks
  /-- A bitmap has one block. -/
  blocks_le : sb.blocksPerGroup ≤ 8 * sb.blockSize
  total_lt : sb.totalBlocks < 2 ^ 32
  inodes_lt : sb.groups * sb.inodesPerGroup < 2 ^ 32

structure Described {sb : Superblock} (L : Layout sb) (V : Image) : Prop where
  blockBitmap : ∀ g < sb.groups, sb.blockBitmap V g = L.blockBitmap g
  inodeBitmap : ∀ g < sb.groups, sb.inodeBitmap V g = L.inodeBitmap g
  inodeTable : ∀ g < sb.groups, sb.inodeTable V g = L.inodeTable g

structure Volume {sb : Superblock} (L : Layout sb) (V : Image) : Prop extends Described L V where
  /-- The bits past the last block of a group are set. -/
  padded : ∀ g < sb.groups, ∀ p < 8 * sb.blockSize, sb.blockBit V g p = false →
    p < sb.blocksPerGroup ∧ sb.firstDataBlock + g * sb.blocksPerGroup + p < sb.totalBlocks
  /-- The bits past the last inode of a group are set. -/
  inodePadded : ∀ g < sb.groups, ∀ p < 8 * sb.blockSize, sb.inodeBit V g p = false → p < sb.inodesPerGroup
  /-- The driver counts the groups from block zero on. If that is one too many, the descriptor behind the last one
  has no free block. -/
  behind : ∀ g < sb.bgdsTotal, sb.groups ≤ g → sb.groupFreeBlocks V g = 0

/-! ### Changing a bitmap and its counter -/

/-- The image after the bitmap in block `b` is changed by `f` and `d` is added to the counter at `o` of the
    descriptor of group `g`. -/
def Image.mark (V : Image) (sb : Superblock) (g b : Nat) (f : Block → Block) (o d : Nat) : Image :=
  let W := Function.update V b (f (V b))
  Function.update W (sb.bgdAddr g).block
    ((W (sb.bgdAddr g).block).wr16 ((sb.bgdAddr g).off + o) (sb.bgd16 W g o + d))

section Mark
variable {sb : Superblock} {V : Image} {g b : Nat} {f : Block → Block} {o d : Nat} {c g' : Nat} {s : State}

theorem mark_at (hc : c ≠ (sb.bgdAddr g).block) :
    V.mark sb g b f o d c = if c = b then f (V b) else V c := by
  rw [Image.mark, Function.update_of_ne hc, Function.update_apply]

theorem mark_other (h₁ : c ≠ b) (h₂ : c ≠ (sb.bgdAddr g).block) : V.mark sb g b f o d c = V c := by
  simp [Image.mark, Function.update_of_ne h₁, Function.update_of_ne h₂]

theorem mark_descriptors (h : b ≠ (sb.bgdAddr g).block) : V.mark sb g b f o d (sb.bgdAddr g).block =
    (V (sb.bgdAddr g).block).wr16 ((sb.bgdAddr g).off + o) (sb.bgd16 V g o + d) := by
  simp [Image.mark, Superblock.bgd16, Function.update_of_ne h.symm]

theorem mark_agree (lo hi : Nat) (h : b ≠ (sb.bgdAddr g).block) (h' : b ≠ (sb.bgdAddr g').block)
    (hhi : hi ≤ 32) (ho : o + 2 ≤ 32) (hd : g = g' → hi ≤ o ∨ o + 2 ≤ lo) :
    Block.Agree (V.mark sb g b f o d (sb.bgdAddr g').block) (V (sb.bgdAddr g').block)
      ((sb.bgdAddr g').off + lo) ((sb.bgdAddr g').off + hi) := by
  by_cases hb : (sb.bgdAddr g').block = (sb.bgdAddr g).block
  · rw [hb, mark_descriptors h]
    apply Block.agree_wr16
    by_cases hg : g = g'
    · subst hg
      have := hd rfl
      omega
    · have := sb.bgdAddr_sep hg
      omega
  · rw [mark_other h'.symm hb]
    exact Block.Agree.refl _ _ _

theorem bgd32_mark {o' : Nat} (h : b ≠ (sb.bgdAddr g).block) (h' : b ≠ (sb.bgdAddr g').block) (ho' : o' + 4 ≤ o)
    (ho : o + 2 ≤ 32) : sb.bgd32 (V.mark sb g b f o d) g' o' = sb.bgd32 V g' o' :=
  (mark_agree o' (o' + 4) h h' (by omega) ho fun _ => by omega).rd32 (by omega) (by omega)

theorem bgd16_mark (h : b ≠ (sb.bgdAddr g).block) (h' : b ≠ (sb.bgdAddr g').block) (ho : o + 2 ≤ 32) :
    sb.bgd16 (V.mark sb g b f o d) g' o = if g' = g then (sb.bgd16 V g o + d) % 65536 else sb.bgd16 V g' o := by
  split
  · rename_i heq
    rw [heq, Superblock.bgd16, mark_descriptors h, Block.rd16_wr16]
  · rename_i hne
    exact (mark_agree o (o + 2) h h' ho ho fun heq => absurd heq.symm hne).rd16 (by omega) (by omega)

theorem edit_mark (hb : s.Ready b) (hb' : s.Dirty b)
    (hg : s.Ready (s.sb.bgdAddr g).block) (hg' : s.Dirty (s.sb.bgdAddr g).block) :
    Edit s ((s.poke b f).set16 (s.sb.bgdAddr g) o ((s.poke b f).u16 (s.sb.bgdAddr g) o + d))
      (s.view.mark s.sb g b f o d) := by
  have h₁ : Edit s (s.poke b f) _ := State.edit_poke hb hb'
  have hr := h₁.ready _ hg
  have h₂ := h₁.trans (State.edit_poke (f := (·.wr16 ((s.sb.bgdAddr g).off + o)
    ((s.poke b f).u16 (s.sb.bgdAddr g) o + d))) hr (h₁.dirty _ hg'))
  rw [State.u16_eq hr, h₁.view] at h₂
  rw [State.set16, State.u16_eq hr, h₁.view]
  exact h₂

theorem counted_mark (hb : s.Ready b) (hb' : s.Dirty b)
    (hg : s.Ready (s.sb.bgdAddr g).block) (hg' : s.Dirty (s.sb.bgdAddr g).block) (F G : Nat → Nat) :
    let t := (s.poke b f).set16 (s.sb.bgdAddr g) o ((s.poke b f).u16 (s.sb.bgdAddr g) o + d)
    Counted s { t with freeBlocks := F t.freeBlocks, freeInodes := G t.freeInodes } (s.view.mark s.sb g b f o d)
      (F s.freeBlocks) (G s.freeInodes) := by
  intro t
  have hed : Edit s t _ := edit_mark hb hb' hg hg'
  have hc := hed.counted (counted_counters t (F t.freeBlocks) (G t.freeInodes))
  rw [hed.view] at hc
  rwa [hed.freeBlocks, hed.freeInodes] at hc ⊢

end Mark

/-! ### The areas of an image -/

section Layout
variable {sb : Superblock} (L : Layout sb) {g g' k : Nat}

theorem Layout.descriptors_valid (h : g < sb.groups) : (Area.descriptors (g / sb.bgdsPerBlock)).Valid sb :=
  ⟨g, h, rfl⟩

theorem Layout.blockBitmap_ne (h : g < sb.groups) (h' : g' < sb.groups) :
    L.blockBitmap g ≠ (sb.bgdAddr g').block := fun heq => by
  cases L.inj (.blockBitmap g) (.descriptors (g' / sb.bgdsPerBlock)) h (descriptors_valid h') heq

theorem Layout.inodeBitmap_ne (h : g < sb.groups) (h' : g' < sb.groups) :
    L.inodeBitmap g ≠ (sb.bgdAddr g').block := fun heq => by
  cases L.inj (.inodeBitmap g) (.descriptors (g' / sb.bgdsPerBlock)) h (descriptors_valid h') heq

theorem Layout.blockBitmap_inj (h : g < sb.groups) (h' : g' < sb.groups)
    (heq : L.blockBitmap g = L.blockBitmap g') : g = g' := by
  cases L.inj (.blockBitmap g) (.blockBitmap g') h h' heq
  rfl

theorem Layout.inodeBitmap_inj (h : g < sb.groups) (h' : g' < sb.groups)
    (heq : L.inodeBitmap g = L.inodeBitmap g') : g = g' := by
  cases L.inj (.inodeBitmap g) (.inodeBitmap g') h h' heq
  rfl

theorem Layout.inodeTable_ne (h : (Area.inodeTable g k).Valid sb) (h' : g' < sb.groups) :
    L.inodeTable g + k ≠ (sb.bgdAddr g').block := fun heq => by
  cases L.inj (.inodeTable g k) (.descriptors (g' / sb.bgdsPerBlock)) h (descriptors_valid h') heq

theorem Layout.inodeTable_ne_inodeBitmap (h : (Area.inodeTable g k).Valid sb) (h' : g' < sb.groups) :
    L.inodeTable g + k ≠ L.inodeBitmap g' := fun heq => by
  cases L.inj (.inodeTable g k) (.inodeBitmap g') h h' heq

end Layout

/-! ### Bitmaps and counters of a marked image -/

section Marked
variable {sb : Superblock} {L : Layout sb} {V : Image}

theorem mark_self (V : Image) (sb : Superblock) (g b o : Nat) : V.mark sb g b id o 0 = V := by
  simp [Image.mark, Superblock.bgd16, Block.wr16_rd16]

theorem Described.mark (h : Described L V) {g b : Nat} {f : Block → Block} {o d : Nat} (hg : g < sb.groups)
    (hb : ∀ g' < sb.groups, b ≠ (sb.bgdAddr g').block) (ho : 12 ≤ o) (ho' : o + 2 ≤ 32) :
    Described L (V.mark sb g b f o d) where
  blockBitmap g' hg' := by
    rw [← h.blockBitmap g' hg']
    exact bgd32_mark (hb g hg) (hb g' hg') (by simp only [Bgd.blockBitmap]; omega) ho'
  inodeBitmap g' hg' := by
    rw [← h.inodeBitmap g' hg']
    exact bgd32_mark (hb g hg) (hb g' hg') (by simp only [Bgd.inodeBitmap]; omega) ho'
  inodeTable g' hg' := by
    rw [← h.inodeTable g' hg']
    exact bgd32_mark (hb g hg) (hb g' hg') (by simp only [Bgd.inodeTable]; omega) ho'

variable {g g' : Nat} {f : Block → Block} {d : Nat} {c : Nat} {z : Block}

section
variable (hg : g < sb.groups) (hg' : g' < sb.groups)
include hg hg'

theorem mark_blockBitmap : V.mark sb g (L.blockBitmap g) f Bgd.freeBlocks d (L.blockBitmap g') =
      if g' = g then f (V (L.blockBitmap g)) else V (L.blockBitmap g') := by
  rw [mark_at (L.blockBitmap_ne hg' hg)]
  exact if_congr ⟨L.blockBitmap_inj hg' hg, congrArg _⟩ rfl rfl

theorem mark_inodeBitmap : V.mark sb g (L.inodeBitmap g) f Bgd.freeInodes d (L.inodeBitmap g') =
      if g' = g then f (V (L.inodeBitmap g)) else V (L.inodeBitmap g') := by
  rw [mark_at (L.inodeBitmap_ne hg' hg)]
  exact if_congr ⟨L.inodeBitmap_inj hg' hg, congrArg _⟩ rfl rfl

theorem groupFreeBlocks_mark : sb.groupFreeBlocks (V.mark sb g (L.blockBitmap g) f Bgd.freeBlocks d) g' =
      if g' = g then (sb.groupFreeBlocks V g + d) % 65536 else sb.groupFreeBlocks V g' :=
  bgd16_mark (L.blockBitmap_ne hg hg) (L.blockBitmap_ne hg hg') (by decide)

theorem groupFreeInodes_mark : sb.groupFreeInodes (V.mark sb g (L.inodeBitmap g) f Bgd.freeInodes d) g' =
      if g' = g then (sb.groupFreeInodes V g + d) % 65536 else sb.groupFreeInodes V g' :=
  bgd16_mark (L.inodeBitmap_ne hg hg) (L.inodeBitmap_ne hg hg') (by decide)

end

theorem Described.update (h : Described L V) (hc : ∀ g < sb.groups, c ≠ (sb.bgdAddr g).block) :
    Described L (Function.update V c z) where
  blockBitmap g hg := by
    rw [Superblock.blockBitmap, Superblock.bgd32, Function.update_of_ne (hc g hg).symm]
    exact h.blockBitmap g hg
  inodeBitmap g hg := by
    rw [Superblock.inodeBitmap, Superblock.bgd32, Function.update_of_ne (hc g hg).symm]
    exact h.inodeBitmap g hg
  inodeTable g hg := by
    rw [Superblock.inodeTable, Superblock.bgd32, Function.update_of_ne (hc g hg).symm]
    exact h.inodeTable g hg

theorem bgd16_update (hc : c ≠ (sb.bgdAddr g).block) (o : Nat) :
    sb.bgd16 (Function.update V c z) g o = sb.bgd16 V g o := by
  rw [Superblock.bgd16, Function.update_of_ne hc.symm, Superblock.bgd16]

end Marked

/-- A volume that was just mounted, on a device that does not fail: its blocks have the contents `img`. -/
def State.mounted (sb : Superblock) (img : Image) (freeBlocks freeInodes : Nat) : State where
  sb := sb
  freeBlocks := freeBlocks
  freeInodes := freeInodes
  disk := fun k => img (k / sb.sectorsPerBlock)
  io := fun _ => 0
  mem := fun _ => true
  ios := 0
  mems := 0
  now := 0
  list := Cache.empty
  errno := 0
  ptrLinks := []
  ptrIdent := 0
  ptrIndex := 0
  ptrBlock := 0
  ptrData := none
  iter := ⟨0, 0, 0, none, ⟨0, 0⟩⟩
  blkbuf := Block.zero
  oob := false
  hang := false

theorem mounted_works (sb : Superblock) (img : Image) (fb fi : Nat) : (State.mounted sb img fb fi).Works :=
  ⟨fun _ => Int.le_refl 0, fun _ => rfl⟩

/-- The bitmaps and inode tables packed behind one block of descriptors, three blocks for each group. -/
def Superblock.packed (sb : Superblock) : Places where
  blockBitmap g := sb.bgdsStart + 1 + 3 * g
  inodeBitmap g := sb.bgdsStart + 2 + 3 * g
  inodeTable g := sb.bgdsStart + 3 + 3 * g

variable {sb : Superblock}

theorem table_one_block (ht : sb.inodesPerGroup * sb.inodeSize ≤ sb.blockSize) {k : Nat}
    (hk : k * sb.blockSize < sb.inodesPerGroup * sb.inodeSize) : k = 0 := by
  by_contra hk0
  have := Nat.le_mul_of_pos_left sb.blockSize (Nat.pos_of_ne_zero hk0)
  omega

theorem descriptors_one_block (hd : sb.groups ≤ sb.bgdsPerBlock) {i : Nat}
    (h : ∃ g < sb.groups, g / sb.bgdsPerBlock = i) : i = 0 := by
  obtain ⟨g, hg, rfl⟩ := h
  exact Nat.div_eq_of_lt (by omega)

/-- The packed places are a layout when the descriptors and each of the tables have one block. -/
def Superblock.packedLayout (sb : Superblock) (hd : sb.groups ≤ sb.bgdsPerBlock)
    (ht : sb.inodesPerGroup * sb.inodeSize ≤ sb.blockSize) (hlt : sb.bgdsStart + 3 * sb.groups < sb.totalBlocks)
    (hbits : sb.blocksPerGroup ≤ 8 * sb.blockSize) (h32 : sb.totalBlocks < 2 ^ 32)
    (hino : sb.groups * sb.inodesPerGroup < 2 ^ 32) : Layout sb where
  toPlaces := sb.packed
  inj := by
    rintro (i | g | g | ⟨g, k⟩) (i' | g' | g' | ⟨g', k'⟩) h h' heq <;>
      simp only [Area.Valid] at h h' <;> simp only [Places.block, Superblock.packed] at heq
    case descriptors.descriptors => rw [descriptors_one_block hd h, descriptors_one_block hd h']
    case descriptors.inodeTable => have := descriptors_one_block hd h; omega
    case inodeTable.descriptors => have := descriptors_one_block hd h'; omega
    case inodeTable.inodeTable =>
      have := table_one_block ht h.2
      have := table_one_block ht h'.2
      exact congrArg₂ Area.inodeTable (by omega) (by omega)
    case inodeTable.blockBitmap => have := table_one_block ht h.2; omega
    case inodeTable.inodeBitmap => have := table_one_block ht h.2; omega
    case blockBitmap.inodeTable => have := table_one_block ht h'.2; omega
    case inodeBitmap.inodeTable => have := table_one_block ht h'.2; omega
    case descriptors.blockBitmap => have := descriptors_one_block hd h; omega
    case descriptors.inodeBitmap => have := descriptors_one_block hd h; omega
    case blockBitmap.descriptors => have := descriptors_one_block hd h'; omega
    case inodeBitmap.descriptors => have := descriptors_one_block hd h'; omega
    case blockBitmap.blockBitmap => exact congrArg Area.blockBitmap (by omega)
    case inodeBitmap.inodeBitmap => exact congrArg Area.inodeBitmap (by omega)
    all_goals omega
  lt := by
    rintro (i | g | g | ⟨g, k⟩) h <;> simp only [Area.Valid] at h <;> simp only [Places.block, Superblock.packed]
    · have := descriptors_one_block hd h
      omega
    · omega
    · omega
    · have := table_one_block ht h.2
      omega
  blocks_le := hbits
  total_lt := h32
  inodes_lt := hino

/-- An image with the packed layout: the counters and bitmaps of each group, and the other blocks. -/
def Superblock.packedImage (sb : Superblock) (fb fi : Nat → Byte) (bb ib : Nat → Block) (rest : Image) : Image :=
    fun b =>
  if b = sb.bgdsStart then fun i =>
    if i % 32 = 0 then BitVec.ofNat 8 (sb.packed.blockBitmap (i / 32))
    else if i % 32 = 4 then BitVec.ofNat 8 (sb.packed.inodeBitmap (i / 32))
    else if i % 32 = 8 then BitVec.ofNat 8 (sb.packed.inodeTable (i / 32))
    else if i % 32 = 12 then fb (i / 32)
    else if i % 32 = 14 then fi (i / 32)
    else 0
  else if sb.bgdsStart < b ∧ b ≤ sb.bgdsStart + 3 * sb.groups ∧ (b - sb.bgdsStart) % 3 = 1 then
    bb ((b - sb.bgdsStart) / 3)
  else if sb.bgdsStart < b ∧ b ≤ sb.bgdsStart + 3 * sb.groups ∧ (b - sb.bgdsStart) % 3 = 2 then
    ib ((b - sb.bgdsStart) / 3)
  else rest b

end Novino.Ext2
