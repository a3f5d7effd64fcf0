import Novino.Theorems.Blocks

/-! Reading, allocating and freeing inodes, and for which geometries freeing an inode undoes its allocation. -/

namespace Novino.Ext2
open State

def Superblock.inodeAddr (sb : Superblock) (V : Image) (ino : Nat) : Addr :=
  ⟨add32 (sub32 ino 1 % sb.inodesPerGroup * sb.inodeSize / sb.blockSize)
      (sb.inodeTable V (sub32 ino 1 / sb.inodesPerGroup)),
    sub32 ino 1 % sb.inodesPerGroup * sb.inodeSize % sb.blockSize⟩

inductive InodeRead (s s' : State) (ino : Nat) (d : Bool) : Option Addr → Prop
  | ok (quiet : Quiet s s') (ready : s'.Ready (s.sb.inodeAddr s.view ino).block)
      (dirty : d = true → s'.Dirty (s.sb.inodeAddr s.view ino).block) :
      InodeRead s s' ino d (some (s.sb.inodeAddr s.view ino))
  | fail (quiet : Quiet s s') (errno : s'.errno < 0) (broken : ¬s.Works) : InodeRead s s' ino d none

theorem inodeRead_spec (s : State) (ino : Nat) (d : Bool) :
    ∃ s' r, inodeRead s ino d = (s', r) ∧ InodeRead s s' ino d r ∧ (r = none → Fault s s'.errno) := by
  unfold inodeRead
  dsimp only
  obtain ⟨s₁, r, heq, hr, hfault⟩ := bgdRead_spec s (sub32 ino 1 / s.sb.inodesPerGroup) false
  rw [heq]
  cases hr with
  | fail q e w => exact ⟨s₁, _, rfl, .fail q e w, fun _ => hfault rfl⟩
  | ok q r _ =>
    have haddr : (⟨add32 (sub32 ino 1 % s.sb.inodesPerGroup * s.sb.inodeSize / s.sb.blockSize)
        (s₁.u32 (s.sb.bgdAddr (sub32 ino 1 / s.sb.inodesPerGroup)) Bgd.inodeTable),
        sub32 ino 1 % s.sb.inodesPerGroup * s.sb.inodeSize % s.sb.blockSize⟩ : Addr) =
          s.sb.inodeAddr s.view ino := by
      rw [q.bgd32 r]
      rfl
    obtain ⟨s₂, ok, heq₂, hf, hfault⟩ := readCached_spec s₁ (s.sb.inodeAddr s.view ino).block d
    simp only [q.bgd32 r] at haddr ⊢
    have hblk := congrArg Addr.block haddr
    dsimp only at hblk
    rw [hblk, heq₂]
    cases hf with
    | fail q₂ e w =>
      exact ⟨s₂, _, rfl, .fail (q.trans q₂) e fun h => w (q.works h), fun _ => (hfault rfl).of_core q.toCore⟩
    | ok q₂ r₂ d₂ => exact ⟨s₂, _, rfl, .ok (q.trans q₂) r₂ d₂, nofun⟩

structure Superblock.FirstFree (sb : Superblock) (V : Image) (g p : Nat) : Prop where
  lt : p < 8 * sb.blockSize
  free : sb.inodeBit V g p = false
  used : ∀ q < p, sb.inodeBit V g q = true

theorem ctzNot_spec : ∀ b : Byte, b ≠ 0xFF#8 →
    ctzNot b < 8 ∧ b.getLsbD (ctzNot b) = false ∧ ∀ j < ctzNot b, b.getLsbD j = true := by
  decide +kernel

theorem firstClear_spec (bitmap : Block) (n i : Nat) (h : ∀ q < 8 * i, bitmap.bit q = true) :
    (∃ p, firstClear bitmap n i = some p ∧ p < 8 * (i + n) ∧ bitmap.bit p = false ∧ ∀ q < p, bitmap.bit q = true) ∨
      firstClear bitmap n i = none ∧ ∀ q < 8 * (i + n), bitmap.bit q = true := by
  induction n generalizing i with
  | zero => exact .inr ⟨rfl, h⟩
  | succ n ih =>
    unfold firstClear
    by_cases hfull : bitmap i = 0xFF#8
    · rw [if_pos hfull, show i + (n + 1) = i + 1 + n by omega]
      refine ih (i + 1) fun q hq => ?_
      by_cases hlt : q < 8 * i
      · exact h q hlt
      · exact bit_of_full (by rwa [show q / 8 = i by omega])
    · obtain ⟨hlt, hfree, hused⟩ := ctzNot_spec (bitmap i) hfull
      rw [if_neg hfull]
      have hbyte : ∀ j < 8, bitmap.bit (j + 8 * i) = (bitmap i).getLsbD j := fun j hj => by
        rw [Block.bit, show (j + 8 * i) / 8 = i by omega, show (j + 8 * i) % 8 = j by omega]
      refine .inl ⟨_, rfl, by omega, by rw [hbyte _ hlt, hfree], fun q hq => ?_⟩
      by_cases hlo : q < 8 * i
      · exact h q hlo
      · have := hused (q - 8 * i) (by omega)
        rwa [← hbyte (q - 8 * i) (by omega), show q - 8 * i + 8 * i = q by omega] at this

def Superblock.inodeTaken (sb : Superblock) (V : Image) (g : Nat) (pos : Option Nat) : Image :=
  V.mark sb g (sb.inodeBitmap V g) (fun b => pos.elim b b.setBit) Bgd.freeInodes (2 ^ 16 - 1)

def Superblock.inodeFreed (sb : Superblock) (V : Image) (g p : Nat) : Image :=
  V.mark sb g (sb.inodeBitmap V g) (·.clrBit p) Bgd.freeInodes 1

/-- How the part of `ext2_inode_alloc` that marks an inode as used ends. A full volume is an error of the context. -/
inductive Taken (s s' : State) (bg : Nat) : Option Nat → Prop
  | ok {g : Nat} {pos : Option Nat} (serves : s.sb.Serves s.view (s.sb.groupFreeInodes s.view) bg g)
      (first : ∀ p, pos = some p → s.sb.FirstFree s.view g p)
      (found : pos = none → ∀ q < 8 * s.sb.blockSize, s.sb.inodeBit s.view g q = true)
      (counted : Counted s s' (s.sb.inodeTaken s.view g pos) s.freeBlocks (sub32 s.freeInodes 1)) :
      Taken s s' bg (some (add32 (1 + pos.getD 0) (g * s.sb.inodesPerGroup)))
  | full {t : State} (quiet : Quiet s t) (state : s' = { t with errno := -ENOSPC })
      (nogroup : ∀ g, ¬s.sb.Serves s.view (s.sb.groupFreeInodes s.view) bg g) : Taken s s' bg none
  | fail (quiet : Quiet s s') (errno : s'.errno < 0) (broken : ¬s.Works) : Taken s s' bg none

variable {s t u : State} {g b fb p ino p' : Nat} {V : Image} {L : Layout s.sb} {sb : Superblock}

theorem markInodeUsed_counted (pos : Option Nat) (hb : s.Ready b) (hb' : s.Dirty b)
    (hg : s.Ready (s.sb.bgdAddr g).block) (hg' : s.Dirty (s.sb.bgdAddr g).block) :
    Counted s (markInodeUsed s (s.sb.bgdAddr g) b pos)
      (s.view.mark s.sb g b (fun z => pos.elim z z.setBit) Bgd.freeInodes (2 ^ 16 - 1)) s.freeBlocks
      (sub32 s.freeInodes 1) :=
  counted_mark hb hb' hg hg' id (sub32 · 1)

theorem inodeTake_spec (s : State) (bg : Nat) : ∃ s' r, inodeTake s bg = (s', r) ∧ Taken s s' bg r ∧
    (r = none → Fault s s'.errno ∨ ∀ g, ¬s.sb.Serves s.view (s.sb.groupFreeInodes s.view) bg g) := by
  obtain ⟨s₁, r, heq, hr, hnone⟩ := pickGroup_spec s bg Bgd.freeInodes
  unfold inodeTake
  rw [heq]
  cases hr with
  | fail q e hst w =>
    exact ⟨{ s₁ with errno := s₁.errno }, none, by rw [hst], .fail q e w, fun _ => hst ▸ hnone _ rfl⟩
  | full q hn => exact ⟨_, none, rfl, .full q rfl hn, fun _ => .inr hn⟩
  | @ok g q hs r d =>
    have hbm : s₁.u32 (s.sb.bgdAddr g) Bgd.inodeBitmap = s.sb.inodeBitmap s.view g := q.bgd32 r _
    simp only [hbm]
    obtain ⟨s₂, ok, heq₂, hf, hfault⟩ := readCached_spec s₁ (s.sb.inodeBitmap s.view g) true
    simp only [heq₂]
    cases hf with
    | fail q₂ e w =>
      exact ⟨s₂, _, rfl, .fail (q.trans q₂) e fun h => w (q.works h), fun _ => .inl ((hfault rfl).of_core q.toCore)⟩
    | ok q₂ r₂ d₂ =>
      have hq := q.trans q₂
      simp only [State.data_eq_view r₂, hq.view, hq.sb]
      obtain ⟨pos, hpos⟩ : ∃ pos, pos = firstClear (s.view (s.sb.inodeBitmap s.view g)) s.sb.blockSize 0 := ⟨_, rfl⟩
      have hfc := firstClear_spec (s.view (s.sb.inodeBitmap s.view g)) s.sb.blockSize 0 (fun q hq => by omega)
      rw [Nat.zero_add, ← hpos] at hfc
      have hm := markInodeUsed_counted (g := g) pos r₂ (d₂ rfl)
        (by rw [hq.sb]; exact q₂.ready _ r) (by rw [hq.sb]; exact q₂.dirty _ d)
      rw [hq.sb, hq.view, hq.freeBlocks, hq.freeInodes] at hm
      rw [← hpos]
      refine ⟨_, _, rfl, .ok hs (fun p hp => ?_) (fun hp => ?_) (hq.edit.counted hm), nofun⟩
      · rcases hfc with ⟨p', hp', h₁, h₂, h₃⟩ | ⟨h₁, -⟩
        · cases hp'.symm.trans hp
          exact ⟨h₁, h₂, h₃⟩
        · cases h₁.symm.trans hp
      · rcases hfc with ⟨p', hp', -⟩ | ⟨-, h₂⟩
        · cases hp'.symm.trans hp
        · exact h₂

def settime (z : Block) (off now : Nat) : TimeField → Block
  | .atime => (z.wr32 (off + Inode.atime) now).wr32 (off + Inode.ctime) now
  | .ctime => z.wr32 (off + Inode.ctime) now
  | .dtime => (z.wr32 (off + Inode.dtime) now).wr32 (off + Inode.ctime) now
  | .mtime => (z.wr32 (off + Inode.mtime) now).wr32 (off + Inode.ctime) now

def setattr (z : Block) (off : Nat) (sp : VInode) : Block :=
  let z := ((z.wr16 (off + Inode.mode) sp.mode).wr32 (off + Inode.atime) sp.atime).wr32 (off + Inode.ctime) sp.ctime
  let z := ((z.wr32 (off + Inode.mtime) sp.mtime).wr16 (off + Inode.uid) sp.uid).wr16 (off + Inode.gid) sp.gid
  z.wr16 (off + Inode.mode) (z.rd16 (off + Inode.mode) ||| typeBits sp.flags)

def newInode (z : Block) (off size links : Nat) (sp : VInode) : Block :=
  setattr ((z.clear off size).wr16 (off + Inode.links) links) off sp

section Attributes
variable {s t : State} {b : Nat} {z : Block}

theorem OnBlock.settime (h : OnBlock s t b z) (off : Nat) (f : TimeField) :
    OnBlock s (inodeSettime t ⟨b, off⟩ f) b (settime z off s.now f) := by
  have hnow : t.now = s.now := h.now
  cases f <;> simp only [inodeSettime, Ext2.settime] <;> rw [hnow]
  · exact (h.set32 off _ _).set32 off _ _
  · exact h.set32 off _ _
  · exact (h.set32 off _ _).set32 off _ _
  · exact (h.set32 off _ _).set32 off _ _

theorem OnBlock.setattr (h : OnBlock s t b z) (off : Nat) (sp : VInode) :
    OnBlock s (inodeSetattr t ⟨b, off⟩ sp) b (setattr z off sp) := by
  have h₁ := (((((h.set16 off Inode.mode sp.mode).set32 off Inode.atime sp.atime).set32 off Inode.ctime sp.ctime).set32
    off Inode.mtime sp.mtime).set16 off Inode.uid sp.uid).set16 off Inode.gid sp.gid
  unfold inodeSetattr
  dsimp only
  rw [h₁.u16]
  exact h₁.set16 off Inode.mode _

end Attributes

inductive InodeAllocated (s s' : State) (bg links : Nat) (ip : VInode) : Option Addr → VInode → Prop
  | ok {g ino : Nat} {pos : Option Nat} {V : Image} {a : Addr}
      (serves : s.sb.Serves s.view (s.sb.groupFreeInodes s.view) bg g)
      (first : ∀ p, pos = some p → s.sb.FirstFree s.view g p)
      (found : pos = none → ∀ q < 8 * s.sb.blockSize, s.sb.inodeBit s.view g q = true)
      (number : ino = add32 (1 + pos.getD 0) (g * s.sb.inodesPerGroup))
      (taken : V = s.sb.inodeTaken s.view g pos) (addr : a = s.sb.inodeAddr V ino)
      (counted : Counted s s' (Function.update V a.block
        (newInode (V a.block) a.off s.sb.inodeSize links { ip with ino })) s.freeBlocks (sub32 s.freeInodes 1)) :
      InodeAllocated s s' bg links ip (some a) { ip with ino }
  | full {t : State} (quiet : Quiet s t) (state : s' = { t with errno := -ENOSPC })
      (nogroup : ∀ g, ¬s.sb.Serves s.view (s.sb.groupFreeInodes s.view) bg g) : InodeAllocated s s' bg links ip none ip
  | fail {ip' : VInode} (errno : s'.errno < 0) (broken : ¬s.Works) : InodeAllocated s s' bg links ip none ip'

theorem Counted.edit {fi : Nat} (h₁ : Counted s t V fb fi) {W : Image}
    (h₂ : Edit t u W) : Counted s u W fb fi where
  toFrame := h₁.toFrame.trans h₂.toFrame
  toRegs := h₁.toRegs.trans h₂.toRegs
  toFlags := h₁.toFlags.trans h₂.toFlags
  view := h₂.view
  freeBlocks := h₂.freeBlocks.trans h₁.freeBlocks
  freeInodes := h₂.freeInodes.trans h₁.freeInodes

theorem inodeAlloc_spec (s : State) (bg links : Nat) (ip : VInode) :
    ∃ s' r ip', inodeAlloc s bg links ip = (s', r, ip') ∧ InodeAllocated s s' bg links ip r ip' ∧
      (r = none → Fault s s'.errno ∨ ∀ g, ¬s.sb.Serves s.view (s.sb.groupFreeInodes s.view) bg g) := by
  obtain ⟨s₁, r, heq, hr, hnone⟩ := inodeTake_spec s bg
  unfold inodeAlloc
  rw [heq]
  cases hr with
  | fail q e w => exact ⟨s₁, _, _, rfl, .fail e w, fun _ => hnone rfl⟩
  | full q hst hn => exact ⟨s₁, _, _, rfl, .full q hst hn, fun _ => .inr hn⟩
  | @ok g pos hs hfirst hfound hc =>
    obtain ⟨ino, hino⟩ : ∃ ino, ino = add32 (1 + pos.getD 0) (g * s.sb.inodesPerGroup) := ⟨_, rfl⟩
    rw [← hino]
    dsimp only
    obtain ⟨s₂, r, heq₂, hr₂, hfault⟩ := inodeRead_spec s₁ ino true
    rw [heq₂]
    cases hr₂ with
    | fail q e w =>
      exact ⟨s₂, _, _, rfl, .fail e fun h => w (hc.works h), fun _ => .inl ((hfault rfl).of_core hc.toCore)⟩
    | ok q r d =>
      have hed : OnBlock s₂ _ (s₁.sb.inodeAddr s₁.view ino).block _ :=
        (((OnBlock.refl r (d rfl)).poke (·.clear (s₁.sb.inodeAddr s₁.view ino).off s₂.sb.inodeSize)).set16
          (s₁.sb.inodeAddr s₁.view ino).off Inode.links links).setattr (s₁.sb.inodeAddr s₁.view ino).off
            { ip with ino }
      have hcnt := hc.edit (q.edit.trans hed.toEdit)
      rw [q.view, q.sb, hc.sb, hc.view] at hcnt
      dsimp only
      rw [q.sb, hc.sb, hc.view]
      exact ⟨_, _, _, rfl, .ok hs hfirst hfound hino rfl rfl hcnt, nofun⟩

theorem markInodeFree_counted (p : Nat) (hp : p < 8 * s.sb.blockSize) (hb : s.Ready b)
    (hb' : s.Dirty b) (hg : s.Ready (s.sb.bgdAddr g).block) (hg' : s.Dirty (s.sb.bgdAddr g).block) :
    Counted s (markInodeFree s (s.sb.bgdAddr g) b p) (s.view.mark s.sb g b (·.clrBit p) Bgd.freeInodes 1) s.freeBlocks
      (add32 s.freeInodes 1) := by
  rw [markInodeFree, State.bound, if_pos (decide_eq_true hp)]
  exact counted_mark hb hb' hg hg' id (add32 · 1)

/-- How `ext2_inode_free` ends, when the bit that it clears is in the bitmap. -/
inductive InodeFreed (s s' : State) (ino : Nat) : Int → Prop
  | ok {g p : Nat} {V : Image} {a : Addr} (group : g = sub32 ino 1 / s.sb.inodesPerGroup)
      (pos : p = sub32 ino 1 % s.sb.blocksPerGroup) (freed : V = s.sb.inodeFreed s.view g p)
      (addr : a = s.sb.inodeAddr s.view ino)
      (counted : Counted s s' (Function.update V a.block (settime (V a.block) a.off s.now .dtime)) s.freeBlocks
        (add32 s.freeInodes 1)) : InodeFreed s s' ino 0
  | fail {e : Int} (quiet : Quiet s s') (errno : s'.errno < 0) (status : e = s'.errno) (broken : ¬s.Works) :
      InodeFreed s s' ino e

theorem inodeFree_spec (s : State) (ino : Nat) (hp : sub32 ino 1 % s.sb.blocksPerGroup < 8 * s.sb.blockSize) :
    ∃ s' st, inodeFree s ino = (s', st) ∧ InodeFreed s s' ino st := by
  unfold inodeFree
  obtain ⟨s₁, r, heq, hr, -⟩ := inodeRead_spec s ino true
  rw [heq]
  cases hr with
  | fail q e w => exact ⟨s₁, _, rfl, .fail q e rfl w⟩
  | ok q r d =>
    dsimp only
    obtain ⟨g, hg⟩ : ∃ g, g = sub32 ino 1 / s.sb.inodesPerGroup := ⟨_, rfl⟩
    obtain ⟨p, hp'⟩ : ∃ p, p = sub32 ino 1 % s.sb.blocksPerGroup := ⟨_, rfl⟩
    rw [q.sb, ← hg, ← hp']
    rw [← hp'] at hp
    obtain ⟨s₂, r₂, heq₂, hr₂, -⟩ := bgdRead_spec s₁ g true
    rw [heq₂]
    cases hr₂ with
    | fail q₂ e w => exact ⟨s₂, _, rfl, .fail (q.trans q₂) e rfl fun h => w (q.works h)⟩
    | ok q₂ r₂ d₂ =>
      have hbm : s₂.u32 (s₁.sb.bgdAddr g) Bgd.inodeBitmap = s.sb.inodeBitmap s.view g := by
        rw [q₂.bgd32 r₂, q.sb, q.view]
        rfl
      simp only [hbm]
      obtain ⟨s₃, ok, heq₃, hf, -⟩ := readCached_spec s₂ (s.sb.inodeBitmap s.view g) true
      have hq₂ := q.trans q₂
      rw [heq₃]
      cases hf with
      | fail q₃ e w => exact ⟨s₃, _, rfl, .fail (hq₂.trans q₃) e rfl fun h => w (hq₂.works h)⟩
      | ok q₃ r₃ d₃ =>
        have hq := hq₂.trans q₃
        have hm := markInodeFree_counted (s := s₃) (g := g) p (by rw [hq.sb]; exact hp) r₃ (d₃ rfl)
          (by rw [hq.sb, ← q.sb]; exact q₃.ready _ r₂) (by rw [hq.sb, ← q.sb]; exact q₃.dirty _ (d₂ rfl))
        have hr := hm.ready _ (q₃.ready _ (q₂.ready _ r))
        have hd := hm.dirty _ (q₃.dirty _ (q₂.dirty _ (d rfl)))
        have hed := (OnBlock.refl hr hd).settime (s.sb.inodeAddr s.view ino).off .dtime
        have hcnt := hq.edit.counted (hm.edit hed.toEdit)
        rw [hm.view, hm.now, hq.sb, hq.view, hq.now, hq.freeBlocks, hq.freeInodes] at hcnt
        rw [q.sb]
        exact ⟨_, _, rfl, .ok hg hp' rfl rfl hcnt⟩

def Superblock.ValidInode (sb : Superblock) (ino : Nat) : Prop := 1 ≤ ino ∧ ino ≤ sb.groups * sb.inodesPerGroup

section Numbers
variable {sb : Superblock} {L : Layout sb} {V : Image} {ino : Nat}

theorem Superblock.ValidInode.sub32 (h : sb.ValidInode ino) (L : Layout sb) : sub32 ino 1 = ino - 1 := by
  have := L.inodes_lt
  have := h.1
  have := h.2
  unfold Ext2.sub32
  omega

theorem Superblock.ValidInode.group_lt (h : sb.ValidInode ino) : (ino - 1) / sb.inodesPerGroup < sb.groups := by
  have := h.1
  have := h.2
  apply Nat.div_lt_of_lt_mul
  rw [Nat.mul_comm]
  omega

theorem Superblock.ValidInode.area (h : sb.ValidInode ino) :
    (Area.inodeTable ((ino - 1) / sb.inodesPerGroup)
      ((ino - 1) % sb.inodesPerGroup * sb.inodeSize / sb.blockSize)).Valid sb := by
  refine ⟨h.group_lt, ?_⟩
  have hlt : (ino - 1) % sb.inodesPerGroup < sb.inodesPerGroup := Nat.mod_lt _ sb.inodes_pos
  have hsize : 0 < sb.inodeSize := Nat.lt_of_lt_of_le (by decide) sb.inodeSize_ge
  calc _ ≤ (ino - 1) % sb.inodesPerGroup * sb.inodeSize := Nat.div_mul_le_self _ _
    _ < sb.inodesPerGroup * sb.inodeSize := Nat.mul_lt_mul_of_pos_right hlt hsize

theorem Described.inodeAddr (h : Described L V) (hv : sb.ValidInode ino) : sb.inodeAddr V ino =
    ⟨L.inodeTable ((ino - 1) / sb.inodesPerGroup) + (ino - 1) % sb.inodesPerGroup * sb.inodeSize / sb.blockSize,
      (ino - 1) % sb.inodesPerGroup * sb.inodeSize % sb.blockSize⟩ := by
  have hlt := L.lt _ hv.area
  have htot := L.total_lt
  simp only [Places.block] at hlt
  rw [Superblock.inodeAddr, hv.sub32 L, h.inodeTable _ hv.group_lt, add32, Nat.mod_eq_of_lt (by omega), Nat.add_comm]

theorem validInode_of_pos {g p : Nat} (hg : g < sb.groups) (hp : p < sb.inodesPerGroup) :
    sb.ValidInode (1 + p + g * sb.inodesPerGroup) := by
  have : (g + 1) * sb.inodesPerGroup ≤ sb.groups * sb.inodesPerGroup := Nat.mul_le_mul_right _ hg
  rw [Nat.add_mul, Nat.one_mul] at this
  exact ⟨by omega, by omega⟩

end Numbers

/-! ### Freeing what was allocated -/

section Images
variable {sb : Superblock} {L : Layout sb} {V : Image} {g g' : Nat}

section
variable (h : Described L V) (hg : g < sb.groups)
include h hg

theorem Described.inodeBit (p : Nat) : sb.inodeBit V g p = (V (L.inodeBitmap g)).bit p := by
  rw [Superblock.inodeBit, h.inodeBitmap g hg]

theorem Described.inodeTaken (pos : Option Nat) : Described L (sb.inodeTaken V g pos) := by
  unfold Superblock.inodeTaken
  rw [h.inodeBitmap g hg]
  exact h.mark hg (fun g' hg' => L.inodeBitmap_ne hg hg') (by decide) (by decide)

theorem Described.inodeFreed (p : Nat) : Described L (sb.inodeFreed V g p) := by
  unfold Superblock.inodeFreed
  rw [h.inodeBitmap g hg]
  exact h.mark hg (fun g' hg' => L.inodeBitmap_ne hg hg') (by decide) (by decide)

section
variable (hg' : g' < sb.groups)
include hg'

theorem inodeBit_taken (p q : Nat) :
    sb.inodeBit (sb.inodeTaken V g (some p)) g' q = (sb.inodeBit V g' q || decide (g' = g ∧ q = p)) := by
  rw [(h.inodeTaken hg (some p)).inodeBit hg', h.inodeBit hg', Superblock.inodeTaken, h.inodeBitmap g hg,
    mark_inodeBitmap hg hg']
  split
  · rename_i heq
    rw [Option.elim_some, Block.bit_setBit, heq]
    simp
  · rename_i hne
    simp [hne]

theorem inodeBit_freed (p q : Nat) :
    sb.inodeBit (sb.inodeFreed V g p) g' q = (sb.inodeBit V g' q && !decide (g' = g ∧ q = p)) := by
  rw [(h.inodeFreed hg p).inodeBit hg', h.inodeBit hg', Superblock.inodeFreed, h.inodeBitmap g hg,
    mark_inodeBitmap hg hg']
  split
  · rename_i heq
    rw [Block.bit_clrBit, heq]
    simp
  · rename_i hne
    simp [hne]

theorem groupFreeInodes_taken (pos : Option Nat) :
    sb.groupFreeInodes (sb.inodeTaken V g pos) g' =
      if g' = g then (sb.groupFreeInodes V g + (2 ^ 16 - 1)) % 65536 else sb.groupFreeInodes V g' := by
  rw [Superblock.inodeTaken, h.inodeBitmap g hg, groupFreeInodes_mark hg hg']

theorem groupFreeInodes_freed (p : Nat) : sb.groupFreeInodes (sb.inodeFreed V g p) g' =
      if g' = g then (sb.groupFreeInodes V g + 1) % 65536 else sb.groupFreeInodes V g' := by
  rw [Superblock.inodeFreed, h.inodeBitmap g hg, groupFreeInodes_mark hg hg']

end

end

variable {ino : Nat} {z : Block}

theorem Described.update_inode (h : Described L V) (hv : sb.ValidInode ino) :
    Described L (Function.update V (sb.inodeAddr V ino).block z) := by
  rw [h.inodeAddr hv]
  exact h.update fun g hg => L.inodeTable_ne hv.area hg

theorem inodeBit_update_inode (h : Described L V) (hv : sb.ValidInode ino) (hg : g < sb.groups) (q : Nat) :
    sb.inodeBit (Function.update V (sb.inodeAddr V ino).block z) g q = sb.inodeBit V g q := by
  rw [(h.update_inode hv).inodeBit hg, h.inodeBit hg, h.inodeAddr hv,
    Function.update_of_ne (L.inodeTable_ne_inodeBitmap hv.area hg).symm]

theorem groupFreeInodes_update_inode (h : Described L V) (hv : sb.ValidInode ino) (hg : g < sb.groups) :
    sb.groupFreeInodes (Function.update V (sb.inodeAddr V ino).block z) g = sb.groupFreeInodes V g := by
  rw [h.inodeAddr hv]
  exact bgd16_update (L.inodeTable_ne hv.area hg) _

end Images

structure InodesRestored (s t : State) : Prop where
  bitmaps : ∀ g < s.sb.groups, ∀ q, s.sb.inodeBit t.view g q = s.sb.inodeBit s.view g q
  counters : ∀ g < s.sb.groups, s.sb.groupFreeInodes t.view g = s.sb.groupFreeInodes s.view g
  total : t.freeInodes = s.freeInodes

/-- Freeing an inode that was just allocated clears the bit that was set, and no other, and restores the counters. -/
def InodeFreeRestores (s : State) (bg links : Nat) (ip : VInode) : Prop :=
  ∀ a, (inodeAlloc s bg links ip).2.1 = some a →
    InodesRestored s (inodeFree (inodeAlloc s bg links ip).1 (inodeAlloc s bg links ip).2.2.ino).1

structure InodeTaken (s t : State) (L : Layout s.sb) (g p ino : Nat) : Prop where
  valid : s.sb.ValidInode ino
  number : ino = 1 + p + g * s.sb.inodesPerGroup
  lt : p < s.sb.inodesPerGroup
  described : Described L t.view
  bits : ∀ g' < s.sb.groups, ∀ q, s.sb.inodeBit t.view g' q =
    (s.sb.inodeBit s.view g' q || decide (g' = g ∧ q = p))
  counters : ∀ g' < s.sb.groups, s.sb.groupFreeInodes t.view g' =
    if g' = g then (s.sb.groupFreeInodes s.view g + (2 ^ 16 - 1)) % 65536 else s.sb.groupFreeInodes s.view g'
  total : t.freeInodes = sub32 s.freeInodes 1

theorem InodeTaken.of_counted (vol : Volume L s.view)
    {z : Block} (hg : g < s.sb.groups) (hff : s.sb.FirstFree s.view g p)
    (hino : ino = add32 (1 + p) (g * s.sb.inodesPerGroup)) (hV : V = s.sb.inodeTaken s.view g (some p))
    (hc : Counted s t (Function.update V (s.sb.inodeAddr V ino).block z) fb (sub32 s.freeInodes 1)) :
    InodeTaken s t L g p ino := by
  have hp : p < s.sb.inodesPerGroup := vol.inodePadded g hg p hff.lt hff.free
  have hv := validInode_of_pos hg hp
  have hnum : ino = 1 + p + g * s.sb.inodesPerGroup := by
    have := hv.2
    have := L.inodes_lt
    rw [hino, add32, Nat.mod_eq_of_lt (by omega)]
  rw [← hnum] at hv
  have hdV : Described L V := hV ▸ vol.toDescribed.inodeTaken hg (some p)
  refine ⟨hv, hnum, hp, ?_, fun g' hg' q => ?_, fun g' hg' => ?_, hc.freeInodes⟩ <;> rw [hc.view]
  · exact hdV.update_inode hv
  · rw [inodeBit_update_inode hdV hv hg', hV, inodeBit_taken vol.toDescribed hg hg']
  · rw [groupFreeInodes_update_inode hdV hv hg', hV, groupFreeInodes_taken vol.toDescribed hg hg']

/-- What freeing inode `ino` changes in the bitmaps and counters: the bit at `p` of its group. -/
structure InodeGiven (sb : Superblock) (s t : State) (g p : Nat) : Prop where
  bits : ∀ g' < sb.groups, ∀ q, sb.inodeBit t.view g' q = (sb.inodeBit s.view g' q && !decide (g' = g ∧ q = p))
  counters : ∀ g' < sb.groups, sb.groupFreeInodes t.view g' =
    if g' = g then (sb.groupFreeInodes s.view g + 1) % 65536 else sb.groupFreeInodes s.view g'
  total : t.freeInodes = add32 s.freeInodes 1

theorem inodeFree_given {L : Layout sb} (hsb : s.sb = sb) (w : s.Works)
    (h : Described L s.view) (hv : sb.ValidInode ino) :
    InodeGiven sb s (inodeFree s ino).1 ((ino - 1) / sb.inodesPerGroup) ((ino - 1) % sb.blocksPerGroup) := by
  subst hsb
  have hbpg : sub32 ino 1 % s.sb.blocksPerGroup < 8 * s.sb.blockSize :=
    Nat.lt_of_lt_of_le (Nat.mod_lt _ s.sb.blocks_pos) L.blocks_le
  obtain ⟨t, st, heq, hf⟩ := inodeFree_spec s ino hbpg
  rw [heq]
  cases hf with
  | fail _ _ _ hw => exact absurd w hw
  | @ok g p V a hg hp hV ha hc =>
    rw [hv.sub32 L] at hg hp
    have hlt : g < s.sb.groups := hg ▸ hv.group_lt
    have hdV : Described L V := hV ▸ h.inodeFreed hlt p
    have haddr : a = s.sb.inodeAddr V ino := by rw [ha, h.inodeAddr hv, hdV.inodeAddr hv]
    rw [← hg, ← hp]
    refine ⟨fun g' hg' q => ?_, fun g' hg' => ?_, hc.freeInodes⟩ <;> dsimp only <;> rw [hc.view, haddr]
    · rw [inodeBit_update_inode hdV hv hg', hV, inodeBit_freed h hlt hg']
    · rw [groupFreeInodes_update_inode hdV hv hg', hV, groupFreeInodes_freed h hlt hg']

theorem InodeTaken.restored_iff (h : InodeTaken s t L g p ino)
    (hg : g < s.sb.groups) (hfree : s.sb.inodeBit s.view g p = false) (hfi : s.freeInodes < 2 ^ 32)
    (h' : InodeGiven s.sb t u g p') : InodesRestored s u ↔ p' = p := by
  constructor
  · intro hres
    by_contra hne
    have := hres.bitmaps g hg p
    rw [h'.bits g hg p, h.bits g hg p, hfree] at this
    simp [Ne.symm hne] at this
  · rintro rfl
    refine ⟨fun g₁ hg₁ q => ?_, fun g₁ hg₁ => ?_, by rw [h'.total, h.total, add32_sub32 hfi]⟩
    · rw [h'.bits g₁ hg₁, h.bits g₁ hg₁]
      by_cases hin : g₁ = g ∧ q = p'
      · obtain ⟨rfl, rfl⟩ := hin
        simp [hfree]
      · simp [hin]
    · rw [h'.counters g₁ hg₁, h.counters g hg, h.counters g₁ hg₁]
      have : s.sb.groupFreeInodes s.view g < 65536 := Block.rd16_lt _ _
      split
      · rename_i heq
        subst heq
        rw [if_pos rfl]
        omega
      · rfl

theorem Superblock.FirstFree.unique (h : sb.FirstFree V g p)
    (h' : sb.FirstFree V g p') : p = p' := by
  rcases Nat.lt_trichotomy p p' with hlt | heq | hlt
  · exact absurd (h'.used p hlt) (by simp [h.free])
  · exact heq
  · exact absurd (h.used p' hlt) (by simp [h'.free])

theorem add_mod_eq_right_iff {x m : Nat} (hm : 0 < m) : (x + p) % m = p ↔ m ∣ x ∧ p < m := by
  constructor
  · intro h
    refine ⟨⟨(x + p) / m, ?_⟩, h ▸ Nat.mod_lt _ hm⟩
    have := Nat.div_add_mod (x + p) m
    omega
  · rintro ⟨⟨c, rfl⟩, hp⟩
    rw [Nat.mul_add_mod, Nat.mod_eq_of_lt hp]

/-- `ext2_inode_free` takes the position of the bit modulo the blocks of a group, so it undoes `ext2_inode_alloc`
exactly when that is the position in the group. -/
theorem inode_free_restores_iff (s : State) (w : s.Works) (L : Layout s.sb) (vol : Volume L s.view)
    (hfi : s.freeInodes < 2 ^ 32) (bg links : Nat) (ip : VInode) (hbg : bg < s.sb.groups)
    (hfree : ∀ g, s.sb.Serves s.view (s.sb.groupFreeInodes s.view) bg g →
      ∃ p < 8 * s.sb.blockSize, s.sb.inodeBit s.view g p = false) :
    InodeFreeRestores s bg links ip ↔
      ∀ g p, s.sb.Serves s.view (s.sb.groupFreeInodes s.view) bg g → s.sb.FirstFree s.view g p →
        s.sb.blocksPerGroup ∣ g * s.sb.inodesPerGroup ∧ p < s.sb.blocksPerGroup := by
  obtain ⟨t, r, ip', heq, hr, -⟩ := inodeAlloc_spec s bg links ip
  unfold InodeFreeRestores
  rw [heq]
  cases hr with
  | fail _ hw => exact absurd w hw
  | full _ _ hn => exact iff_of_true (fun a ha => by cases ha) fun g p hs => absurd hs (hn g)
  | @ok g ino pos V a hs hfirst hnone hino hV ha hc =>
    have hg : g < s.sb.groups := hs.lt vol hbg
    -- the bitmap has a clear bit
    obtain ⟨p, rfl⟩ : ∃ p, pos = some p := by
      cases pos with
      | none =>
        obtain ⟨p, hp, hclear⟩ := hfree g hs
        rw [hnone rfl p hp] at hclear
        cases hclear
      | some p => exact ⟨p, rfl⟩
    have hff := hfirst p rfl
    subst ha
    have ht : InodeTaken s t L g p ino := .of_counted vol hg hff hino hV hc
    have hgiven := inodeFree_given hc.sb (hc.works w) ht.described ht.valid
    have hsub : ino - 1 = g * s.sb.inodesPerGroup + p := by
      have := ht.number
      omega
    rw [hsub, (group_pos ht.lt).1] at hgiven
    simp only [Option.some.injEq, forall_eq']
    rw [ht.restored_iff hg hff.free hfi hgiven, add_mod_eq_right_iff s.sb.blocks_pos]
    constructor
    · intro h g₁ p₁ hs₁ hff₁
      cases hs₁.unique hs
      exact hff₁.unique hff ▸ h
    · intro h
      exact h g p hs hff

def twoGroups : Superblock :=
  { oneGroup with
    totalBlocks := 64
    inodesPerGroup := 24
    inodes_pos := Nat.le_of_ble_eq_true rfl
    table_le := Nat.le_of_ble_eq_true rfl }

def twoGroupsLayout : Layout twoGroups :=
  twoGroups.packedLayout (by decide) (by decide) (by decide) (by decide) (by decide) (by decide)

def twoGroupsVolume : State :=
  State.mounted twoGroups (twoGroups.packedImage (fun _ => 0) (fun _ => 1) (fun _ _ => 0xFF)
    (fun _ i => if i = 0 then 0xFE else 0xFF) fun _ => Block.zero) 0 2

theorem twoGroupsVolume_volume : Volume twoGroupsLayout twoGroupsVolume.view where
  blockBitmap := by decide
  inodeBitmap := by decide
  inodeTable := by decide
  padded g hg p _ hp := by
    have hfull : ∀ g < twoGroups.groups, twoGroupsVolume.view (twoGroups.blockBitmap twoGroupsVolume.view g) =
        fun _ => 0xFF#8 := by
      intro g hg
      obtain rfl | rfl : g = 0 ∨ g = 1 := by
        have : twoGroups.groups = 2 := by decide
        omega
      · rfl
      · rfl
    rw [Superblock.blockBit, hfull g hg, bit_of_full rfl] at hp
    cases hp
  inodePadded g hg p _ hp := by
    have hbm : ∀ g < twoGroups.groups, twoGroupsVolume.view (twoGroups.inodeBitmap twoGroupsVolume.view g) =
        fun i => if i = 0 then 0xFE#8 else 0xFF#8 := by
      intro g hg
      obtain rfl | rfl : g = 0 ∨ g = 1 := by
        have : twoGroups.groups = 2 := by decide
        omega
      · rfl
      · rfl
    have hlt : p < 8 := by
      by_contra hge
      rw [Superblock.inodeBit, hbm g hg, bit_of_full (if_neg (by omega))] at hp
      cases hp
    exact Nat.lt_of_lt_of_le hlt (by decide)
  behind := by decide

def noAttributes : VInode := ⟨0, 0, 0, 0, 0, 0, 0, 0, 0, 0, 0, 0⟩

theorem inode_free_restores_first : InodeFreeRestores twoGroupsVolume 0 1 noAttributes := by
  have hfree : ∀ g < 2, twoGroups.inodeBit twoGroupsVolume.view g 0 = false := by decide
  have hgroups : twoGroups.groups = 2 := by decide
  refine (inode_free_restores_iff twoGroupsVolume (mounted_works _ _ _ _) twoGroupsLayout twoGroupsVolume_volume
    (by decide) 0 1 noAttributes (by decide) fun g hs => ?_).mpr fun g p hs hf => ?_
  · exact ⟨0, by decide, hfree g (hgroups ▸ hs.lt twoGroupsVolume_volume (by decide))⟩
  · obtain ⟨-, rfl⟩ | ⟨h, -⟩ := hs
    · have hp : p = 0 := by
        by_contra hne
        exact absurd ((hf.used 0 (by omega)).symm.trans (hfree 0 (by decide))) (by decide)
      rw [hp]
      decide
    · exact absurd h (by decide)

/-- The first inode of the second group has number 25. Freeing it leaves its bit set. -/
theorem inode_free_leaves_bit :
    (inodeAlloc twoGroupsVolume 1 1 noAttributes).2.2.ino = 25 ∧
      ¬InodeFreeRestores twoGroupsVolume 1 1 noAttributes := by
  have hino : (inodeAlloc twoGroupsVolume 1 1 noAttributes).2.2.ino = 25 := by decide +kernel
  refine ⟨hino, fun h => ?_⟩
  have hsome : (inodeAlloc twoGroupsVolume 1 1 noAttributes).2.1 = some ⟨7, 0⟩ := by decide +kernel
  have hbit : twoGroups.inodeBit (inodeFree (inodeAlloc twoGroupsVolume 1 1 noAttributes).1 25).1.view 1 0 = true := by
    decide +kernel
  have hr := (h _ hsome).bitmaps 1 (by decide) 0
  rw [hino, show twoGroupsVolume.sb = twoGroups from rfl, hbit] at hr
  exact absurd hr (by decide +kernel)

end Novino.Ext2
