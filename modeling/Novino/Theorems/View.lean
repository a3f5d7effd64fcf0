import Novino.Ext2.Context

/-! The cache of a context as a view of the disk: a block is seen through the cache when it is cached and ready, and on
    the disk otherwise. -/

namespace Novino.Ext2
open State

/-! ### The list of cached blocks -/

theorem find_place_self (xs : List Blk) (y : Blk) : find (place xs y) y.block = some y := by
  induction xs with
  | nil => simp [place, find]
  | cons x xs ih =>
    unfold place
    split
    · simp [find]
    · split
      · simp [find]
      · rename_i h₁ h₂
        simp [find, h₁, h₂, ih]

variable {y z x item : Blk} {b fb fi : Nat} {s s' t u : State} {V W : Image}

theorem find_place_ne (xs : List Blk) (h : y.block ≠ b) : find (place xs y) b = find xs b := by
  induction xs with
  | nil => simp [place, find, h]
  | cons x xs ih =>
    unfold place
    split
    · rename_i heq
      simp [find, h, heq]
    · split
      · rename_i hne hlt
        by_cases hb : b < y.block
        · have h₁ : x.block ≠ b := by omega
          have h₂ : b < x.block := by omega
          simp [find, h, hb, h₁, h₂]
        · simp [find, h, hb]
      · simp [find, ih]

theorem place_place (xs : List Blk) (h : y.block = z.block) : place (place xs y) z = place xs z := by
  induction xs with
  | nil => simp [place, h]
  | cons x xs ih =>
    by_cases h₁ : x.block = z.block
    · simp [place, h, h₁]
    · by_cases h₂ : z.block < x.block
      · simp [place, h, h₁, h₂]
      · simp [place, h, h₁, h₂, ih]

theorem find_block {xs : List Blk} (h : find xs b = some x) : x.block = b := by
  induction xs with
  | nil => simp [find] at h
  | cons y ys ih =>
    unfold find at h
    split at h
    · cases h
      assumption
    · split at h
      · cases h
      · exact ih h

theorem Cache.find_put (c : Cache) (y : Blk) (b : Nat) :
    (c.put y).find b = if b = y.block then some y else c.find b := by
  split
  · rename_i h
    rw [h]
    exact find_place_self c.items y
  · rename_i h
    exact find_place_ne c.items (Ne.symm h)

theorem Cache.put_put (c : Cache) (h : y.block = z.block) : (c.put y).put z = c.put z := by
  simp [Cache.put, place_place c.items h]

theorem Cache.find_block {c : Cache} (h : c.find b = some x) : x.block = b :=
  Ext2.find_block h

abbrev Image := Nat → Block

/-- What the operation that runs in the context sees of block `b`. -/
def State.view (s : State) : Image := fun b =>
  match s.list.find b with
  | some item => if item.ready then item.data else s.disk (s.sector b)
  | none => s.disk (s.sector b)

def State.Ready (s : State) (b : Nat) : Prop := ∃ item, s.list.find b = some item ∧ item.ready = true

def State.Dirty (s : State) (b : Nat) : Prop := ∃ item, s.list.find b = some item ∧ item.dirty = true

/-- The cache agrees with the disk at block `b`: a content that differs will be written, and without its data it is as
it was allocated. -/
structure State.Synced (s : State) (b : Nat) : Prop where
  dirty : s.view b ≠ s.disk (s.sector b) → s.Dirty b
  fresh : ∀ item, s.list.find b = some item → item.ready = false → item.dirty = false ∧ item.data = Block.zero

structure State.Works (s : State) : Prop where
  io : ∀ n, 0 ≤ s.io n
  mem : ∀ n, s.mem n = true

theorem view_of_not_ready (h : ¬s.Ready b) : s.view b = s.disk (s.sector b) := by
  unfold State.view
  split
  · rename_i item hf
    exact if_neg fun hr => h ⟨item, hf, hr⟩
  · rfl

theorem view_of_find (hf : s.list.find b = some item) (hr : item.ready = true) :
    s.view b = item.data := by
  simp [State.view, hf, hr]

/-- What every part of an operation that writes through the cache keeps. -/
structure Core (s s' : State) : Prop where
  sb : s'.sb = s.sb
  io : s'.io = s.io
  mem : s'.mem = s.mem
  now : s'.now = s.now
  disk : s'.disk = s.disk
  errno : s.Works → s'.errno = s.errno
  ready : ∀ b, s.Ready b → s'.Ready b
  dirty : ∀ b, s.Dirty b → s'.Dirty b

/-- A part of an operation that has marked as dirty what it changed. -/
structure Frame (s s' : State) : Prop extends Core s s' where
  synced : s.Works → ∀ b, s.Synced b → s'.Synced b

structure Regs (s s' : State) : Prop where
  ptrLinks : s'.ptrLinks = s.ptrLinks
  ptrIdent : s'.ptrIdent = s.ptrIdent
  ptrIndex : s'.ptrIndex = s.ptrIndex
  ptrBlock : s'.ptrBlock = s.ptrBlock
  ptrData : s'.ptrData = s.ptrData
  iter : s'.iter = s.iter
  blkbuf : s'.blkbuf = s.blkbuf

structure Flags (s s' : State) : Prop where
  oob : s'.oob = s.oob
  hang : s'.hang = s.hang

/-- A part of an operation that sees the same blocks and counters after it. -/
structure Calm (s s' : State) : Prop extends Frame s s' where
  view : s'.view = s.view
  freeBlocks : s'.freeBlocks = s.freeBlocks
  freeInodes : s'.freeInodes = s.freeInodes

/-- A part of an operation that at most reads blocks into the cache. -/
structure Quiet (s s' : State) : Prop extends Calm s s', Regs s s', Flags s s'

/-- A part of an operation that changes what is seen to `V`, and nothing else. -/
structure Edit (s s' : State) (V : Image) : Prop extends Frame s s', Regs s s', Flags s s' where
  view : s'.view = V
  freeBlocks : s'.freeBlocks = s.freeBlocks
  freeInodes : s'.freeInodes = s.freeInodes

/-- A part of an operation that changes what is seen to `V` and the counters of the superblock to `fb` and `fi`. -/
structure Moved (s s' : State) (V : Image) (fb fi : Nat) : Prop extends Frame s s', Regs s s' where
  view : s'.view = V
  freeBlocks : s'.freeBlocks = fb
  freeInodes : s'.freeInodes = fi

/-- A part of an operation that does so, and in which nothing went wrong. -/
structure Counted (s s' : State) (V : Image) (fb fi : Nat) : Prop extends Moved s s' V fb fi, Flags s s'

theorem Core.refl (s : State) : Core s s :=
  ⟨rfl, rfl, rfl, rfl, rfl, fun _ => rfl, fun _ h => h, fun _ h => h⟩

theorem Core.works (h : Core s s') (w : s.Works) : s'.Works :=
  ⟨by rw [h.io]; exact w.io, by rw [h.mem]; exact w.mem⟩

theorem Core.trans (h₁ : Core s t) (h₂ : Core t u) : Core s u where
  sb := h₂.sb.trans h₁.sb
  io := h₂.io.trans h₁.io
  mem := h₂.mem.trans h₁.mem
  now := h₂.now.trans h₁.now
  disk := h₂.disk.trans h₁.disk
  errno w := (h₂.errno (h₁.works w)).trans (h₁.errno w)
  ready b h := h₂.ready b (h₁.ready b h)
  dirty b h := h₂.dirty b (h₁.dirty b h)

theorem Frame.refl (s : State) : Frame s s := { Core.refl s with synced := fun _ _ h => h }

theorem Frame.trans (h₁ : Frame s t) (h₂ : Frame t u) : Frame s u where
  toCore := h₁.toCore.trans h₂.toCore
  synced w b h := h₂.synced (h₁.works w) b (h₁.synced w b h)

theorem Regs.refl (s : State) : Regs s s := ⟨rfl, rfl, rfl, rfl, rfl, rfl, rfl⟩

theorem Regs.trans (h₁ : Regs s t) (h₂ : Regs t u) : Regs s u :=
  ⟨h₂.ptrLinks.trans h₁.ptrLinks, h₂.ptrIdent.trans h₁.ptrIdent, h₂.ptrIndex.trans h₁.ptrIndex,
    h₂.ptrBlock.trans h₁.ptrBlock, h₂.ptrData.trans h₁.ptrData, h₂.iter.trans h₁.iter, h₂.blkbuf.trans h₁.blkbuf⟩

theorem Flags.refl (s : State) : Flags s s := ⟨rfl, rfl⟩

theorem Flags.trans (h₁ : Flags s t) (h₂ : Flags t u) : Flags s u :=
  ⟨h₂.oob.trans h₁.oob, h₂.hang.trans h₁.hang⟩

theorem Calm.refl (s : State) : Calm s s := { Frame.refl s with view := rfl, freeBlocks := rfl, freeInodes := rfl }

theorem Calm.trans (h₁ : Calm s t) (h₂ : Calm t u) : Calm s u where
  toFrame := h₁.toFrame.trans h₂.toFrame
  view := h₂.view.trans h₁.view
  freeBlocks := h₂.freeBlocks.trans h₁.freeBlocks
  freeInodes := h₂.freeInodes.trans h₁.freeInodes

theorem Quiet.refl (s : State) : Quiet s s := { Calm.refl s, Regs.refl s, Flags.refl s with }

theorem Quiet.trans (h₁ : Quiet s t) (h₂ : Quiet t u) : Quiet s u where
  toCalm := h₁.toCalm.trans h₂.toCalm
  toRegs := h₁.toRegs.trans h₂.toRegs
  toFlags := h₁.toFlags.trans h₂.toFlags

theorem Edit.trans (h₁ : Edit s t V) (h₂ : Edit t u W) : Edit s u W where
  toFrame := h₁.toFrame.trans h₂.toFrame
  toRegs := h₁.toRegs.trans h₂.toRegs
  toFlags := h₁.toFlags.trans h₂.toFlags
  view := h₂.view
  freeBlocks := h₂.freeBlocks.trans h₁.freeBlocks
  freeInodes := h₂.freeInodes.trans h₁.freeInodes

theorem Quiet.edit (q : Quiet s t) : Edit s t s.view :=
  { q.toFrame, q.toRegs, q.toFlags with view := q.view, freeBlocks := q.freeBlocks, freeInodes := q.freeInodes }

theorem Edit.counted (h₁ : Edit s t V)
    (h₂ : Counted t u W fb fi) : Counted s u W fb fi where
  toFrame := h₁.toFrame.trans h₂.toFrame
  toRegs := h₁.toRegs.trans h₂.toRegs
  toFlags := h₁.toFlags.trans h₂.toFlags
  view := h₂.view
  freeBlocks := h₂.freeBlocks
  freeInodes := h₂.freeInodes

theorem Edit.moved (h₁ : Edit s t V)
    (h₂ : Moved t u W fb fi) : Moved s u W fb fi where
  toFrame := h₁.toFrame.trans h₂.toFrame
  toRegs := h₁.toRegs.trans h₂.toRegs
  view := h₂.view
  freeBlocks := h₂.freeBlocks
  freeInodes := h₂.freeInodes

theorem Moved.of_oob {o : Bool}
    (h : Moved { s with oob := o } s' V fb fi) : Moved s s' V fb fi where
  toCore := ⟨h.sb, h.io, h.mem, h.now, h.disk, fun w => h.errno ⟨w.io, w.mem⟩, h.ready, h.dirty⟩
  synced w b hs := h.synced ⟨w.io, w.mem⟩ b ⟨hs.dirty, hs.fresh⟩
  toRegs := ⟨h.ptrLinks, h.ptrIdent, h.ptrIndex, h.ptrBlock, h.ptrData, h.iter, h.blkbuf⟩
  view := h.view
  freeBlocks := h.freeBlocks
  freeInodes := h.freeInodes

theorem counted_counters (s : State) (fb fi : Nat) :
    Counted s { s with freeBlocks := fb, freeInodes := fi } s.view fb fi :=
  { Core.refl s, Regs.refl s, Flags.refl s with
    synced := fun _ _ h => ⟨h.dirty, h.fresh⟩, view := rfl, freeBlocks := rfl, freeInodes := rfl }

/-! ### Pointers into cached blocks -/

section Pointers
variable {s : State} {b : Nat}

theorem State.data_eq_view (h : s.Ready b) : s.data b = s.view b := by
  obtain ⟨item, hf, hr⟩ := h
  simp [State.data, State.view, hf, hr]

theorem State.u16_eq (h : s.Ready b) (off o : Nat) : s.u16 ⟨b, off⟩ o = (s.view b).rd16 (off + o) := by
  rw [State.u16, data_eq_view h]

theorem State.u32_eq (h : s.Ready b) (off o : Nat) : s.u32 ⟨b, off⟩ o = (s.view b).rd32 (off + o) := by
  rw [State.u32, data_eq_view h]

variable {f : Block → Block}

section
variable (h : s.Ready b) {c : Nat}
include h

theorem State.poke_eq : ∃ item, s.list.find b = some item ∧ item.ready = true ∧
    s.poke b f = { s with list := s.list.put { item with data := f item.data } } := by
  obtain ⟨item, hf, hr⟩ := h
  exact ⟨item, hf, hr, by simp [State.poke, hf]⟩

theorem State.view_poke : (s.poke b f).view = Function.update s.view b (f (s.view b)) := by
  obtain ⟨item, hf, hr, heq⟩ := poke_eq (f := f) h
  have hb : item.block = b := Cache.find_block hf
  funext c
  rw [heq]
  by_cases hc : c = b
  · subst hc
    simp [State.view, Cache.find_put, hb, hf, hr]
  · rw [Function.update_of_ne hc]
    simp [State.view, Cache.find_put, hb, hc, State.sector]

theorem State.ready_poke (hc : s.Ready c) : (s.poke b f).Ready c := by
  obtain ⟨item, hf, hr, heq⟩ := poke_eq (f := f) h
  have hb : item.block = b := Cache.find_block hf
  rw [heq]
  by_cases hcb : c = b
  · exact ⟨{ item with data := f item.data }, by simp [Cache.find_put, hb, hcb], hr⟩
  · obtain ⟨it, h₁, h₂⟩ := hc
    exact ⟨it, by simpa [Cache.find_put, hb, hcb] using h₁, h₂⟩

theorem State.dirty_poke (hc : s.Dirty c) : (s.poke b f).Dirty c := by
  obtain ⟨item, hf, hr, heq⟩ := poke_eq (f := f) h
  have hb : item.block = b := Cache.find_block hf
  obtain ⟨it, h₁, h₂⟩ := hc
  rw [heq]
  by_cases hcb : c = b
  · subst hcb
    rw [hf] at h₁
    cases h₁
    exact ⟨{ item with data := f item.data }, by simp [Cache.find_put, hb], h₂⟩
  · exact ⟨it, by simpa [Cache.find_put, hb, hcb] using h₁, h₂⟩

theorem State.synced_poke (hd : c = b → s.Dirty b) (hs : s.Synced c) : (s.poke b f).Synced c := by
  obtain ⟨item, hf, hr, heq⟩ := poke_eq (f := f) h
  have hb : item.block = b := Cache.find_block hf
  constructor
  · intro hc
    apply dirty_poke h
    by_cases hcb : c = b
    · exact hcb ▸ hd hcb
    · rw [view_poke h, Function.update_of_ne hcb, heq] at hc
      exact hs.dirty hc
  · intro it hit hnr
    rw [heq] at hit
    simp only [Cache.find_put, hb] at hit
    split at hit
    · cases hit
      simp [hr] at hnr
    · exact hs.fresh it hit hnr

theorem State.core_poke : Core s (s.poke b f) := by
  obtain ⟨item, -, -, heq⟩ := poke_eq (f := f) h
  refine ⟨?_, ?_, ?_, ?_, ?_, fun _ => ?_, fun c => ready_poke h, fun c => dirty_poke h⟩ <;> rw [heq]

theorem State.frame_poke (hd : s.Dirty b) : Frame s (s.poke b f) :=
  { core_poke h with synced := fun _ _ => synced_poke h fun _ => hd }

theorem State.regs_poke : Regs s (s.poke b f) := by
  obtain ⟨item, -, -, heq⟩ := poke_eq (f := f) h
  rw [heq]
  exact ⟨rfl, rfl, rfl, rfl, rfl, rfl, rfl⟩

theorem State.flags_poke : Flags s (s.poke b f) := by
  obtain ⟨item, -, -, heq⟩ := poke_eq (f := f) h
  rw [heq]
  exact ⟨rfl, rfl⟩

end

theorem State.freeBlocks_poke (s : State) (b : Nat) (f : Block → Block) :
    (s.poke b f).freeBlocks = s.freeBlocks := by
  unfold State.poke
  split <;> rfl

theorem State.freeInodes_poke (s : State) (b : Nat) (f : Block → Block) :
    (s.poke b f).freeInodes = s.freeInodes := by
  unfold State.poke
  split <;> rfl

theorem State.edit_poke (h : s.Ready b) (hd : s.Dirty b) :
    Edit s (s.poke b f) (Function.update s.view b (f (s.view b))) where
  toFrame := frame_poke h hd
  toRegs := regs_poke h
  toFlags := flags_poke h
  view := view_poke h
  freeBlocks := freeBlocks_poke s b f
  freeInodes := freeInodes_poke s b f

end Pointers

/-- Block `b` is in the cache to be written, and is seen as `z`; the other blocks are as in `s`. -/
structure OnBlock (s t : State) (b : Nat) (z : Block) : Prop extends Edit s t (Function.update s.view b z) where
  isReady : t.Ready b
  isDirty : t.Dirty b

section OnBlock
variable {s t : State} {b : Nat} {z : Block}

theorem OnBlock.refl (hr : s.Ready b) (hd : s.Dirty b) : OnBlock s s b (s.view b) :=
  { (Quiet.refl s).edit with view := (Function.update_eq_self b s.view).symm, isReady := hr, isDirty := hd }

section
variable (h : OnBlock s t b z)
include h

theorem OnBlock.poke (f : Block → Block) : OnBlock s (t.poke b f) b (f z) := by
  have hed := h.toEdit.trans (State.edit_poke (f := f) h.isReady h.isDirty)
  rw [h.view, Function.update_self, Function.update_idem] at hed
  exact { hed with isReady := State.ready_poke h.isReady h.isReady, isDirty := State.dirty_poke h.isReady h.isDirty }

theorem OnBlock.set16 (off o v : Nat) : OnBlock s (t.set16 ⟨b, off⟩ o v) b (z.wr16 (off + o) v) :=
  h.poke _

theorem OnBlock.set32 (off o v : Nat) : OnBlock s (t.set32 ⟨b, off⟩ o v) b (z.wr32 (off + o) v) :=
  h.poke _

theorem OnBlock.u16 (off o : Nat) : t.u16 ⟨b, off⟩ o = z.rd16 (off + o) := by
  rw [State.u16_eq h.isReady, h.view, Function.update_self]

end

end OnBlock

/-! ### Reading and initialising blocks -/

/-- Item `y` can take the place of what is cached under its number: the flags only grow. -/
structure Grows (s : State) (y : Blk) : Prop where
  ready : ∀ it, s.list.find y.block = some it → it.ready = true → y.ready = true
  dirty : ∀ it, s.list.find y.block = some it → it.dirty = true → y.dirty = true

section Put
variable {s : State} {y : Blk} {b : Nat}

theorem Grows.ready_put (g : Grows s y)
    (h : s.Ready b) : ({ s with list := s.list.put y } : State).Ready b := by
  obtain ⟨it, h₁, h₂⟩ := h
  by_cases hb : b = y.block
  · subst hb
    exact ⟨y, by simp [Cache.find_put], g.ready it h₁ h₂⟩
  · exact ⟨it, by simpa [Cache.find_put, hb] using h₁, h₂⟩

theorem Grows.dirty_put (g : Grows s y)
    (h : s.Dirty b) : ({ s with list := s.list.put y } : State).Dirty b := by
  obtain ⟨it, h₁, h₂⟩ := h
  by_cases hb : b = y.block
  · subst hb
    exact ⟨y, by simp [Cache.find_put], g.dirty it h₁ h₂⟩
  · exact ⟨it, by simpa [Cache.find_put, hb] using h₁, h₂⟩

theorem view_put_ne (hb : b ≠ y.block) : ({ s with list := s.list.put y } : State).view b = s.view b := by
  simp [State.view, Cache.find_put, hb, State.sector]

theorem Grows.view_put (g : Grows s y) (hd : y.ready = true → y.data = s.view y.block) :
    ({ s with list := s.list.put y } : State).view = s.view := by
  funext b
  by_cases hb : b = y.block
  · subst hb
    by_cases hr : y.ready = true
    · simp [State.view, Cache.find_put, hr, hd hr]
    · -- an item that is not ready replaces one that is not ready
      have hold : ¬s.Ready y.block := fun ⟨it, hf, h⟩ => hr (g.ready it hf h)
      rw [view_of_not_ready hold, view_of_not_ready]
      · rfl
      · rintro ⟨it, hf, h⟩
        simp only [Cache.find_put, ↓reduceIte, Option.some.injEq] at hf
        exact hr (hf ▸ h)
  · exact view_put_ne hb

theorem Grows.core_put (g : Grows s y) : Core s { s with list := s.list.put y } where
  sb := rfl
  io := rfl
  mem := rfl
  now := rfl
  disk := rfl
  errno _ := rfl
  ready _ h := g.ready_put h
  dirty _ h := g.dirty_put h

theorem synced_put_ne (hb : b ≠ y.block) (h : s.Synced b) :
    ({ s with list := s.list.put y } : State).Synced b := by
  refine ⟨fun hne => ?_, fun it hit hnr => ?_⟩
  · rw [view_put_ne hb] at hne
    obtain ⟨it, h₁, h₂⟩ := h.dirty hne
    exact ⟨it, by simpa [Cache.find_put, hb] using h₁, h₂⟩
  · simp only [Cache.find_put, hb] at hit
    exact h.fresh it hit hnr

theorem Grows.quiet_put (g : Grows s y) (hd : y.ready = true → y.data = s.view y.block)
    (hz : s.Works → s.Synced y.block → y.ready = false → y.dirty = false ∧ y.data = Block.zero) :
    Quiet s { s with list := s.list.put y } where
  toCore := g.core_put
  synced w b h := by
    by_cases hb : b = y.block
    · subst hb
      refine ⟨fun hne => ?_, fun it hit hnr => ?_⟩
      · rw [g.view_put hd] at hne
        exact g.dirty_put (h.dirty hne)
      · simp only [Cache.find_put, ↓reduceIte, Option.some.injEq] at hit
        rw [← hit] at hnr ⊢
        exact hz w h hnr
    · exact synced_put_ne hb h
  view := g.view_put hd
  freeBlocks := rfl
  freeInodes := rfl
  toRegs := ⟨rfl, rfl, rfl, rfl, rfl, rfl, rfl⟩
  toFlags := ⟨rfl, rfl⟩

end Put

theorem quiet_ios (s : State) (n : Nat) : Quiet s { s with ios := n } :=
  { Calm.refl s, Regs.refl s, Flags.refl s with synced := fun _ _ h => ⟨h.dirty, h.fresh⟩ }

theorem quiet_mems (s : State) (n : Nat) : Quiet s { s with mems := n } :=
  { Calm.refl s, Regs.refl s, Flags.refl s with synced := fun _ _ h => ⟨h.dirty, h.fresh⟩ }

theorem quiet_fail (s : State) (e : Int) (h : ¬s.Works) : Quiet s { s with errno := e } :=
  { Calm.refl s, Regs.refl s, Flags.refl s with errno := fun w => absurd w h, synced :=
    fun _ _ h => ⟨h.dirty, h.fresh⟩ }

/-- How a part of an operation that needs block `b` ends: with a pointer to its data, or with an error when the
    device or the heap failed. -/
inductive Fetched (s s' : State) (b : Nat) (d : Bool) : Bool → Prop
  | ok (quiet : Quiet s s') (ready : s'.Ready b) (dirty : d = true → s'.Dirty b) : Fetched s s' b d true
  | fail (quiet : Quiet s s') (errno : s'.errno < 0) (broken : ¬s.Works) : Fetched s s' b d false

def Fault (s : State) (e : Int) : Prop := e = -ENOMEM ∨ ∃ n, e = s.io n

theorem Fault.of_core {e : Int} (q : Core s t) (h : Fault t e) : Fault s e := by
  unfold Fault at h ⊢
  rw [← q.io]
  exact h

theorem lookupCached_spec (s : State) (b : Nat) :
    (∃ s' item, lookupCached s b true = (s', some item) ∧ s'.list.find b = some item ∧ Quiet s s') ∨
      ∃ s', lookupCached s b true = (s', none) ∧ Quiet s s' ∧ s'.errno = -ENOMEM ∧ ¬s.Works := by
  unfold lookupCached
  split
  · rename_i item hf
    exact .inl ⟨s, item, rfl, hf, Quiet.refl s⟩
  · rename_i hf
    by_cases hm : s.mem s.mems = true
    · let y : Blk := { block := b, dirty := false, ready := false, data := Block.zero }
      have g : Grows { s with mems := s.mems + 1 } y :=
        ⟨fun it hit => by simp [y, hf] at hit, fun it hit => by simp [y, hf] at hit⟩
      refine .inl ⟨{ s with mems := s.mems + 1, list := s.list.put y }, y, by simp [hm, y],
        by simp [Cache.find_put, y], ?_⟩
      exact (quiet_mems s _).trans (g.quiet_put (by simp [y]) (fun _ _ _ => ⟨rfl, rfl⟩))
    · have hw : ¬s.Works := fun w => hm (w.mem _)
      refine .inr ⟨{ s with mems := s.mems + 1, errno := -ENOMEM }, by simp [hm], ?_, rfl, hw⟩
      exact (quiet_mems s (s.mems + 1)).trans (quiet_fail _ _ fun w => hw ⟨w.io, w.mem⟩)

theorem Grows.of_find (hf : s.list.find b = some item) (hb : y.block = b)
    (hr : item.ready = true → y.ready = true) (hd : item.dirty = true → y.dirty = true) : Grows s y := by
  constructor <;> intro it hit
  · rw [hb, hf] at hit
    cases hit
    exact hr
  · rw [hb, hf] at hit
    cases hit
    exact hd

theorem readCached_spec (s : State) (b : Nat) (d : Bool) :
    ∃ s' ok, readCached s b d = (s', ok) ∧ Fetched s s' b d ok ∧ (ok = false → Fault s s'.errno) := by
  unfold readCached
  rcases lookupCached_spec s b with ⟨s₁, item, heq, hf, hq⟩ | ⟨s₁, heq, hq, he, hw⟩
  · have hb : item.block = b := Cache.find_block hf
    rw [heq]
    -- the item with the new dirty flag
    obtain ⟨y, hy⟩ : ∃ y : Blk, y = { item with dirty := item.dirty || d } := ⟨_, rfl⟩
    have hyb : y.block = b := by rw [hy, ← hb]
    have hyd : d = true → y.dirty = true := by intro h; simp [hy, h]
    have g₁ : Grows s₁ y := Grows.of_find hf hyb (by simp [hy]) (by intro h; simp [hy, h])
    by_cases hr : item.ready = true
    · have hyr : y.ready = true := by rw [hy, ← hr]
      have hq₁ : Quiet s₁ { s₁ with list := s₁.list.put y } := by
        refine g₁.quiet_put (fun _ => ?_) fun _ _ h => ?_
        · rw [hyb, view_of_find hf hr, hy]
        · simp [hyr] at h
      refine ⟨_, true, ?_, .ok (hq.trans hq₁) ⟨y, by simp [Cache.find_put, hyb], hyr⟩
        fun hd => ⟨y, by simp [Cache.find_put, hyb], hyd hd⟩, nofun⟩
      simp [hr, hy]
    · have hr : item.ready = false := by simpa using hr
      have hnr : ¬s₁.Ready b := fun ⟨it, h₁, h₂⟩ => by
        rw [hf] at h₁
        cases h₁
        simp [hr] at h₂
      by_cases hio : s₁.io s₁.ios < 0
      · have hw₁ : ¬s₁.Works := fun w => absurd (w.io s₁.ios) (Int.not_le.mpr hio)
        have hw : ¬s.Works := fun w => hw₁ (hq.works w)
        have hq₁ : Quiet s₁ { s₁ with list := s₁.list.put y } := by
          refine g₁.quiet_put (fun h => ?_) fun w => absurd w hw₁
          simp [hy, hr] at h
        refine ⟨{ s₁ with list := s₁.list.put y, ios := s₁.ios + 1, errno := s₁.io s₁.ios }, false,
          by simp [hr, readDirect, hio, hy], .fail ?_ hio hw, fun _ => .inr ⟨_, congrFun hq.io _⟩⟩
        exact hq.trans (hq₁.trans ((quiet_ios _ (s₁.ios + 1)).trans (quiet_fail _ _ fun w => hw₁ ⟨w.io, w.mem⟩)))
      · obtain ⟨z, hz⟩ : ∃ z : Blk, z = { y with ready := true, data := s₁.disk (s₁.sector b) } := ⟨_, rfl⟩
        have hzb : z.block = b := by rw [hz, ← hyb]
        have g₂ : Grows s₁ z := Grows.of_find hf hzb (by simp [hz]) (by intro h; simp [hz, hy, h])
        have hq₁ : Quiet s₁ { s₁ with list := s₁.list.put z } := by
          refine g₂.quiet_put (fun _ => ?_) fun _ _ h => ?_
          · rw [hzb, view_of_not_ready hnr, hz]
          · simp [hz] at h
        refine ⟨{ s₁ with list := s₁.list.put z, ios := s₁.ios + 1 }, true, ?_,
          .ok (hq.trans (hq₁.trans (quiet_ios _ _))) ⟨z, by simp [Cache.find_put, hzb], by simp [hz]⟩
          fun hd => ⟨z, by simp [Cache.find_put, hzb], by simpa [hz] using hyd hd⟩, nofun⟩
        have hput : (s₁.list.put y).put z = s₁.list.put z := Cache.put_put _ (hyb.trans hzb.symm)
        rw [← hput]
        simp [hr, readDirect, hio, hz, hy, State.sector]
  · rw [heq]
    exact ⟨s₁, false, rfl, .fail hq (he ▸ by decide) hw, fun _ => .inl he⟩

end Novino.Ext2
