import Novino.Theorems.Blocks
import Novino.Ext2.Dirent

/-! Where the blocks of a volume lie on its device, and scans of directories whose blocks hold any bytes. -/

namespace Novino.Ext2
open State

section Sectors
variable (s : State) {b : Nat} (sb : Superblock)

def State.sectors (b : Nat) : List Nat := List.range' (s.sector b) s.sb.sectorsPerBlock

/-- Every block of the volume lies in its own sectors, and a write of one leaves what is read from the others. -/
structure Separate : Prop where
  place : ∀ b < s.sb.totalBlocks, s.sectors b = List.range' (b * s.sb.sectorsPerBlock) s.sb.sectorsPerBlock
  disjoint : ∀ b < s.sb.totalBlocks, ∀ c < s.sb.totalBlocks, b ≠ c → List.Disjoint (s.sectors b) (s.sectors c)
  kept : ∀ b < s.sb.totalBlocks, ∀ c < s.sb.totalBlocks, b ≠ c → ∀ data,
    (readDirect (writeDirect s b data).1 c).2.2 = (readDirect s c).2.2

theorem Superblock.sectorsPerBlock_eq : sb.sectorsPerBlock = 2 ^ (sb.logBlockSize + 1) := by
  rw [sectorsPerBlock, blockSize, pow_succ]
  omega

theorem Superblock.sectorsPerBlock_pos : 0 < sb.sectorsPerBlock := by
  rw [sb.sectorsPerBlock_eq]
  exact Nat.two_pow_pos _

theorem Superblock.sectorsPerBlock_dvd : sb.sectorsPerBlock ∣ 2 ^ 32 := by
  rw [sb.sectorsPerBlock_eq]
  exact Nat.pow_dvd_pow 2 (by have := sb.log_le; omega)

theorem sector_of_le (h : s.sb.totalBlocks * s.sb.sectorsPerBlock ≤ 2 ^ 32) (hb : b < s.sb.totalBlocks) :
    s.sector b = b * s.sb.sectorsPerBlock := by
  have hstep : (b + 1) * s.sb.sectorsPerBlock ≤ s.sb.totalBlocks * s.sb.sectorsPerBlock :=
    Nat.mul_le_mul_right _ hb
  have hpos := s.sb.sectorsPerBlock_pos
  rw [Nat.succ_mul] at hstep
  exact Nat.mod_eq_of_lt (by omega)

theorem writeDirect_read {c : Nat} (h : s.sector c ≠ s.sector b) (data : Block) :
    (readDirect (writeDirect s b data).1 c).2.2 = (readDirect s c).2.2 := by
  unfold writeDirect
  dsimp only
  split
  · rfl
  · exact if_neg h

/-- The blocks have their own sectors exactly when the volume has at most `2 ^ 32` sectors. -/
theorem separate_iff : Separate s ↔ s.sb.totalBlocks * s.sb.sectorsPerBlock ≤ 2 ^ 32 := by
  have hpos := s.sb.sectorsPerBlock_pos
  constructor
  · intro h
    by_contra hlt
    -- the block that would start at sector `2 ^ 32` is put at sector zero
    obtain ⟨b, hb⟩ := s.sb.sectorsPerBlock_dvd
    have hin : b < s.sb.totalBlocks := by
      by_contra hge
      refine hlt ?_
      rw [hb, Nat.mul_comm]
      exact Nat.mul_le_mul_left _ (Nat.le_of_not_lt hge)
    have hplace := h.place b hin
    obtain ⟨k, hk⟩ := Nat.exists_eq_succ_of_ne_zero hpos.ne'
    rw [State.sectors, State.sector, Nat.mul_comm b, ← hb, Nat.mod_self, hk, List.range'_succ,
      List.range'_succ] at hplace
    exact absurd (List.cons.inj hplace).1 (by decide)
  · intro h
    have hne : ∀ b < s.sb.totalBlocks, ∀ c < s.sb.totalBlocks, b ≠ c →
        s.sector b + s.sb.sectorsPerBlock ≤ s.sector c ∨ s.sector c + s.sb.sectorsPerBlock ≤ s.sector b := by
      intro b hb c hc hbc
      rw [sector_of_le s h hb, sector_of_le s h hc, ← Nat.succ_mul, ← Nat.succ_mul]
      rcases Nat.lt_or_gt_of_ne hbc with hlt | hlt
      · exact .inl (Nat.mul_le_mul_right _ hlt)
      · exact .inr (Nat.mul_le_mul_right _ hlt)
    refine ⟨fun b hb => ?_, fun b hb c hc hbc => ?_, fun b hb c hc hbc data => ?_⟩
    · rw [State.sectors, sector_of_le s h hb]
    · intro k hkb hkc
      simp only [State.sectors, List.mem_range'_1] at hkb hkc
      have := hne b hb c hc hbc
      omega
    · refine writeDirect_read s ?_ data
      have := hne b hb c hc hbc
      omega

end Sectors

def wideVolume : Superblock := { shifted with totalBlocks := 2 ^ 31 + 1 }

/-- The sector number of the last block has 32 bits and wraps: it is stored over the first block. -/
theorem last_block_at_start : (State.mounted wideVolume (fun _ => Block.zero) 0 0).sectors (2 ^ 31) = [0, 1] ∧
    (State.mounted wideVolume (fun _ => Block.zero) 0 0).sectors 0 = [0, 1] ∧
    ¬Separate (State.mounted wideVolume (fun _ => Block.zero) 0 0) := by
  refine ⟨by decide, by decide, fun h => ?_⟩
  have hlast : 0 ∈ (State.mounted wideVolume (fun _ => Block.zero) 0 0).sectors (2 ^ 31) := by decide
  have hfirst : 0 ∈ (State.mounted wideVolume (fun _ => Block.zero) 0 0).sectors 0 := by decide
  exact h.disjoint (2 ^ 31) (by decide) 0 (by decide) (by decide) hlast hfirst

/-! ### Frames of lookups

A lookup that creates nothing leaves the iterator. -/

section Frames
variable {s : State} {ibw : Ibw} (b : Nat)

def Steady (s s' : State) : Prop := s'.sb = s.sb ∧ s'.iter = s.iter

theorem Steady.trans {s' s'' : State} (h : Steady s s') (h' : Steady s' s'') : Steady s s'' :=
  ⟨h'.1.trans h.1, h'.2.trans h.2⟩

theorem bound_steady (ok : Bool) : Steady s (s.bound ok) := by
  unfold State.bound
  split
  · exact ⟨rfl, rfl⟩
  · exact ⟨rfl, rfl⟩

theorem readCached_steady (d : Bool) : Steady s (readCached s b d).1 := by
  obtain ⟨s', ok, heq, hf, -⟩ := readCached_spec s b d
  rw [heq]
  cases hf with
  | ok hq _ _ => exact ⟨hq.sb, hq.iter⟩
  | fail hq _ _ => exact ⟨hq.sb, hq.iter⟩

theorem inodeDirectBlock_same (X : Addr) (i : Nat) (h : ibw.create = false) :
    inodeDirectBlock s X i ibw = (s, s.u32 X (Inode.block i), ibw) :=
  if_neg (by simp [h])

theorem inodeIndirectBlock_steady (i : Nat) (h : ibw.create = false) (data : Bool) :
    ∃ s' ok, inodeIndirectBlock s b i ibw data = (s', ok, ibw) ∧ Steady s s' := by
  unfold inodeIndirectBlock
  have hr := readCached_steady (s := s) b false
  revert hr
  rcases readCached s b false with ⟨s₁, _ | _⟩ <;> intro hr
  · exact ⟨s₁, false, rfl, hr⟩
  · refine ⟨_, true, if_neg (by simp [h]), hr.trans (bound_steady _)⟩

theorem pushLink_steady (offset : Nat) : Steady s (if offset = 0 then s.pushLink b else s) := by
  split
  · exact ⟨rfl, rfl⟩
  · exact ⟨rfl, rfl⟩

theorem walkDown_steady (h : ibw.create = false) (b : Nat) (offsets : List Nat) :
    Steady s (walkDown s b ibw offsets).1 := by
  induction offsets generalizing s b with
  | nil => exact ⟨rfl, rfl⟩
  | cons offset offsets ih =>
    have hp := pushLink_steady (s := s) b offset
    cases offsets with
    | nil =>
      obtain ⟨s', ok, heq, hs⟩ :=
        inodeIndirectBlock_steady (s := if offset = 0 then s.pushLink b else s) b offset h true
      rw [walkDown, walkLeaf, heq]
      cases ok with
      | false => exact hp.trans hs
      | true => exact hp.trans ⟨hs.1, hs.2⟩
    | cons next rest =>
      obtain ⟨s', ok, heq, hs⟩ :=
        inodeIndirectBlock_steady (s := if offset = 0 then s.pushLink b else s) b offset h false
      rw [walkDown, walkInner, heq]
      · cases ok with
        | false => exact hp.trans hs
        | true =>
          dsimp only
          split
          · exact hp.trans hs
          · exact (hp.trans hs).trans (ih _)
      · exact fun hnil => List.cons_ne_nil _ _ hnil

theorem walkFrom_steady (h : ibw.create = false) (X : Addr) (root : Nat) (offsets : List Nat) :
    Steady s (walkFrom s X root offsets ibw).1 := by
  rw [walkFrom, inodeDirectBlock_same X root h]
  dsimp only
  split
  · exact ⟨rfl, rfl⟩
  · exact walkDown_steady h _ _

theorem cachedBlock_steady (h : ibw.create = false) (offset : Nat) :
    Steady s (cachedBlock s offset ibw).1 := by
  unfold cachedBlock
  split
  · exact ⟨rfl, rfl⟩
  · dsimp only
    rw [if_neg (by simp [h])]
    exact bound_steady _

theorem inodeGetBlock_steady (X : Addr) (i : Nat) : Steady s (inodeGetBlock s X i).1 := by
  have h : ({ create := false } : Ibw).create = false := rfl
  have start : Steady s { s with ptrLinks := [] } := ⟨rfl, rfl⟩
  unfold inodeGetBlock inodeSetBlock
  dsimp only
  split
  · rw [inodeDirectBlock_same X i h]
    exact start
  · split
    · exact start.trans (cachedBlock_steady h _)
    · have keyed (ident index : Nat) : Steady s { s with ptrLinks := [], ptrIdent := ident, ptrIndex := index } :=
        ⟨rfl, rfl⟩
      split
      · exact (keyed _ _).trans (walkFrom_steady h X _ _)
      · split
        · exact (keyed _ _).trans (walkFrom_steady h X _ _)
        · exact (keyed _ _).trans (walkFrom_steady h X _ _)

end Frames

section Scans
variable {s : State} {off : Nat}

/-- Moves the iterator to the next block, as `ext2_dirent_next` does behind the last record of a block. -/
def enter (s : State) : State :=
  if s.iter.ptr = none then s
  else
    let s := { s with iter := { s.iter with ptr := none, offset := s.iter.offset + 1 } }
    if s.iter.offset < s.iter.count then
      match inodeGetBlock s s.iter.ip s.iter.offset with
      | (s, block) =>
        if block = 0 then s
        else
          match readCached s block false with
          | (s, false) => s
          | (s, true) => { s with iter := { s.iter with ptr := some 0, block } }
    else s

def State.recSize (s : State) (off : Nat) : Nat := s.u16 ⟨s.iter.block, off⟩ Dentry.size

/-- The part of the record at an offset that a call looks at, with its name or without, lies inside the block. -/
def State.Inside (s : State) (copy : Bool) (off : Nat) : Prop :=
  off + s.looks copy ⟨s.iter.block, off⟩ ≤ s.sb.blockSize

theorem six_le_looks (copy : Bool) (dp : Addr) : 6 ≤ s.looks copy dp := by
  unfold State.looks
  dsimp only [Dentry.name]
  split_ifs <;> omega

/-- The offset of the `n`-th record of the current block, from the one that the iterator points to. -/
def State.record (s : State) : Nat → Option Nat
  | 0 => s.iter.ptr
  | n + 1 => (s.record n).bind fun off =>
    if off + s.recSize off < s.sb.blockSize then some (off + s.recSize off) else none

/-- The records of the current block have a size, and lie inside the block with their names. -/
def State.Filled (s : State) : Prop := ∀ n, ∀ off ∈ s.record n, s.recSize off ≠ 0 ∧ s.Inside true off

/-- The state after `n` calls of `ext2_dirent_next`; `copy` tells which of them want the name. -/
def nexts (copy : Nat → Bool) (s : State) : Nat → State
  | 0 => s
  | n + 1 => nexts (fun i => copy (i + 1)) (direntNext s (copy 0)).1 n

/-- The calls come to an end, and none looks outside the block that was read. -/
structure Scanned (copy : Nat → Bool) (s : State) : Prop where
  ends : ∃ n, (nexts copy s n).iter.ptr = none
  inside : ∀ n, ∀ off ∈ (nexts copy s n).iter.ptr, (nexts copy s n).Inside (copy n) off

def State.at (s : State) (off : Nat) : State := { s with iter := { s.iter with ptr := some off } }

theorem enter_at (h : s.iter.ptr = some off) (off' : Nat) : enter (s.at off') = enter s := by
  have hs : s.iter.ptr ≠ none := by simp [h]
  have hs' : (s.at off').iter.ptr ≠ none := Option.some_ne_none _
  rw [enter, enter, if_neg hs, if_neg hs']
  rfl

theorem direntNext_none (h : s.iter.ptr = none) (copy : Bool) : (direntNext s copy).1 = s := by
  rw [direntNext, h]

theorem direntNext_inside {copy : Bool} (h : s.iter.ptr = some off) (hin : s.Inside copy off) : (direntNext s copy).1 =
    if off + s.recSize off < s.sb.blockSize then s.at (off + s.recSize off) else enter s := by
  have hb : s.bound (decide (off + s.looks copy ⟨s.iter.block, off⟩ ≤ s.sb.blockSize)) = s := by
    unfold State.Inside at hin
    exact if_pos (decide_eq_true hin)
  have hne : s.iter.ptr ≠ none := by simp [h]
  rw [direntNext, h]
  dsimp only
  rw [hb]
  unfold State.recSize
  by_cases hlt : off + s.u16 ⟨s.iter.block, off⟩ Dentry.size < s.sb.blockSize
  · rw [if_pos hlt, if_pos hlt]
    rfl
  · rw [if_neg hlt, if_neg hlt, enter, if_neg hne]
    dsimp only
    split
    · split
      · rfl
      · rcases readCached _ _ false with ⟨s₁, _ | _⟩ <;> rfl
    · rfl

theorem Inside.of_true (h : s.Inside true off) (copy : Bool) : s.Inside copy off := by
  cases copy with
  | false => exact Nat.le_trans (Nat.add_le_add_left (six_le_looks true _) _) h
  | true => exact h

theorem Scanned.of_none (h : s.iter.ptr = none) (copy : Nat → Bool) : Scanned copy s := by
  have hfix : ∀ n copy, nexts copy s n = s := by
    intro n
    induction n with
    | zero => exact fun _ => rfl
    | succ n ih =>
      intro copy
      rw [nexts, direntNext_none h]
      exact ih _
  refine ⟨⟨0, h⟩, fun n off hoff => ?_⟩
  rw [hfix, h] at hoff
  cases hoff

theorem scanned_cons {copy : Nat → Bool} : Scanned copy s ↔
    (∀ off ∈ s.iter.ptr, s.Inside (copy 0) off) ∧ Scanned (fun i => copy (i + 1)) (direntNext s (copy 0)).1 := by
  constructor
  · rintro ⟨⟨n, hn⟩, hin⟩
    refine ⟨hin 0, ?_, fun m => hin (m + 1)⟩
    cases n with
    | zero =>
      have hs : s.iter.ptr = none := hn
      refine ⟨0, ?_⟩
      rw [nexts, direntNext_none hs]
      exact hs
    | succ n => exact ⟨n, hn⟩
  · rintro ⟨h0, ⟨n, hn⟩, hin⟩
    refine ⟨⟨n + 1, hn⟩, fun m => ?_⟩
    cases m with
    | zero => exact h0
    | succ m => exact hin m

/-- Every way of calling `ext2_dirent_next` from here comes to an end inside the blocks. -/
def Safe (s : State) : Prop := ∀ copy, Scanned copy s

theorem safe_step (h : s.iter.ptr = some off) : Safe s ↔ s.Inside true off ∧
    Safe (if off + s.recSize off < s.sb.blockSize then s.at (off + s.recSize off) else enter s) := by
  constructor
  · intro hs
    have hin : s.Inside true off := (scanned_cons.mp (hs fun _ => true)).1 off h
    refine ⟨hin, fun copy => ?_⟩
    rw [← direntNext_inside h hin]
    exact (scanned_cons.mp (hs (@Nat.rec (fun _ => Bool) true fun i _ => copy i))).2
  · rintro ⟨hin, hs⟩ copy
    refine scanned_cons.mpr ⟨fun off' hoff => ?_, ?_⟩
    · obtain rfl : off = off' := Option.some.inj (h.symm.trans hoff)
      exact Inside.of_true hin _
    · rw [direntNext_inside h (Inside.of_true hin _)]
      exact hs _

theorem Safe.recSize_ne (hs : Safe s) (h : s.iter.ptr = some off) : s.recSize off ≠ 0 := by
  intro hz
  have hin := ((safe_step h).mp hs).1
  have hlt : off + s.recSize off < s.sb.blockSize := by
    have : off + 6 ≤ s.sb.blockSize := Inside.of_true hin false
    omega
  have hfix : ∀ n, nexts (fun _ => true) s n = s := by
    intro n
    induction n with
    | zero => rfl
    | succ n ih =>
      rw [nexts, direntNext_inside h hin, if_pos hlt, hz, Nat.add_zero]
      have hat : s.at off = s := by
        unfold State.at
        rw [← h]
      rw [hat]
      exact ih
  obtain ⟨n, hn⟩ := (hs fun _ => true).ends
  rw [hfix, h] at hn
  cases hn

theorem record_at (h : s.iter.ptr = some off) (hlt : off + s.recSize off < s.sb.blockSize) (n : Nat) :
    (s.at (off + s.recSize off)).record n = s.record (n + 1) := by
  induction n with
  | zero =>
    rw [State.record, State.record, State.record, h, Option.bind_some, if_pos hlt]
    rfl
  | succ n ih =>
    rw [State.record, ih]
    rfl

theorem record_last (h : s.iter.ptr = some off) (hlt : ¬off + s.recSize off < s.sb.blockSize) (n : Nat) :
    s.record (n + 1) = none := by
  induction n with
  | zero => rw [State.record, State.record, h, Option.bind_some, if_neg hlt]
  | succ n ih => rw [State.record, ih, Option.bind_none]

theorem record_none (h : s.iter.ptr = none) (n : Nat) : s.record n = none := by
  induction n with
  | zero => exact h
  | succ n ih => rw [State.record, ih, Option.bind_none]

theorem filled_step (h : s.iter.ptr = some off) : s.Filled ↔ (s.recSize off ≠ 0 ∧ s.Inside true off) ∧
    (off + s.recSize off < s.sb.blockSize → (s.at (off + s.recSize off)).Filled) := by
  constructor
  · intro hf
    refine ⟨hf 0 off h, fun hlt n off' hoff => hf (n + 1) off' ?_⟩
    rwa [← record_at h hlt]
  · rintro ⟨h0, hrest⟩ n off' hoff
    cases n with
    | zero =>
      obtain rfl : off = off' := Option.some.inj (h.symm.trans hoff)
      exact h0
    | succ n =>
      by_cases hlt : off + s.recSize off < s.sb.blockSize
      · refine hrest hlt n off' ?_
        rwa [record_at h hlt]
      · rw [record_last h hlt] at hoff
        cases hoff

theorem safe_block (h : s.iter.ptr = some off) : Safe s ↔ s.Filled ∧ Safe (enter s) := by
  -- each record takes at least one byte of the rest of the block
  induction hm : s.sb.blockSize - off using Nat.strongRecOn generalizing s off with
  | ind m ih =>
    have key (hz : s.recSize off ≠ 0) : Safe s ↔ s.Filled ∧ Safe (enter s) := by
      rw [safe_step h, filled_step h]
      by_cases hlt : off + s.recSize off < s.sb.blockSize
      · have hat := ih (s.sb.blockSize - (off + s.recSize off)) (by omega) (s := s.at (off + s.recSize off)) rfl rfl
        rw [enter_at h] at hat
        rw [if_pos hlt, hat]
        constructor
        · rintro ⟨hin, hf, he⟩
          exact ⟨⟨⟨hz, hin⟩, fun _ => hf⟩, he⟩
        · rintro ⟨⟨h0, hf⟩, he⟩
          exact ⟨h0.2, hf hlt, he⟩
      · rw [if_neg hlt]
        constructor
        · rintro ⟨hin, he⟩
          exact ⟨⟨⟨hz, hin⟩, fun h => absurd h hlt⟩, he⟩
        · rintro ⟨⟨h0, -⟩, he⟩
          exact ⟨h0.2, he⟩
    constructor
    · exact fun hs => (key (hs.recSize_ne h)).mp hs
    · exact fun hf => (key (hf.1 0 off h).1).mpr hf

theorem enter_none (h : s.iter.ptr = none) : enter s = s := if_pos h

theorem enter_offset (h : (enter s).iter.ptr ≠ none) (hs : s.iter.ptr ≠ none) :
    (enter s).iter.offset = s.iter.offset + 1 ∧ (enter s).iter.count = s.iter.count ∧
      s.iter.offset + 1 < s.iter.count := by
  revert h
  rw [enter, if_neg hs]
  dsimp only
  split
  · rename_i hlt
    have hg := inodeGetBlock_steady (s := { s with iter := { s.iter with ptr := none, offset := s.iter.offset + 1 } })
      s.iter.ip (s.iter.offset + 1)
    revert hg
    rcases inodeGetBlock _ s.iter.ip (s.iter.offset + 1) with ⟨s₁, b⟩
    rintro ⟨-, hg⟩
    dsimp only at hg ⊢
    split
    · intro h
      exact absurd (congrArg Iter.ptr hg) h
    · have hr := readCached_steady (s := s₁) b false
      revert hr
      rcases readCached s₁ b false with ⟨s₂, _ | _⟩
      · rintro ⟨-, hr⟩ h
        exact absurd (congrArg Iter.ptr (hr.trans hg)) h
      · rintro ⟨-, hr⟩ -
        have hi : s₂.iter = { s.iter with ptr := none, offset := s.iter.offset + 1 } := hr.trans hg
        dsimp only
        rw [hi]
        exact ⟨rfl, rfl, hlt⟩
  · exact fun h => absurd rfl h

theorem safe_iff : Safe s ↔ ∀ n, (enter^[n] s).Filled := by
  constructor
  · intro hs n
    induction n generalizing s with
    | zero =>
      cases h : s.iter.ptr with
      | none =>
        intro n off hoff
        have hoff : off ∈ s.record n := hoff
        rw [record_none h] at hoff
        cases hoff
      | some off => exact ((safe_block h).mp hs).1
    | succ n ih =>
      rw [Function.iterate_succ_apply]
      refine ih ?_
      cases h : s.iter.ptr with
      | none => rwa [enter_none h]
      | some off => exact ((safe_block h).mp hs).2
  · intro hf
    -- the nexts enters at most as many blocks as the directory has
    induction hm : s.iter.count - s.iter.offset using Nat.strongRecOn generalizing s with
    | ind m ih =>
      cases h : s.iter.ptr with
      | none => exact fun copy => Scanned.of_none h copy
      | some off =>
        refine (safe_block h).mpr ⟨hf 0, ?_⟩
        by_cases hn : (enter s).iter.ptr = none
        · exact fun copy => Scanned.of_none hn copy
        · obtain ⟨ho, hc, hlt⟩ := enter_offset hn (by simp [h])
          refine ih (s.iter.count - (s.iter.offset + 1)) (by omega) (fun n => ?_) (by rw [ho, hc])
          rw [← Function.iterate_succ_apply]
          exact hf (n + 1)

theorem Safe.next (h : Safe s) (copy : Bool) : Safe (direntNext s copy).1 := fun rest =>
  (scanned_cons.mp (h (@Nat.rec (fun _ => Bool) copy fun i _ => rest i))).2

theorem direntIter_nodots (s : State) (ino : Nat) : (direntIter s ino true).2 = (direntIter s ino false).2 ∧
    ((direntIter s ino true).1 = (direntIter s ino false).1 ∨
      (direntIter s ino true).1 = (direntNext (direntNext (direntIter s ino false).1 false).1 false).1) := by
  unfold direntIter
  split
  · exact ⟨rfl, .inl rfl⟩
  · split
    split
    · exact ⟨rfl, .inl rfl⟩
    · split
      · exact ⟨rfl, .inl rfl⟩
      · exact ⟨rfl, .inr rfl⟩

/-- A scan of a directory ends and looks only at what it has read exactly when each of its blocks is filled with records
that have a size and lie inside the block with their names. No scan is made when `ext2_dirent_iter` fails. -/
theorem scan_safe_iff (s : State) (ino : Nat) :
    (∀ nodots, 0 ≤ (direntIter s ino nodots).2 → Safe (direntIter s ino nodots).1) ↔
      (0 ≤ (direntIter s ino false).2 → ∀ n, (enter^[n] (direntIter s ino false).1).Filled) := by
  rw [← safe_iff]
  refine ⟨fun h => h false, fun h nodots => ?_⟩
  obtain ⟨hstatus, hnodots⟩ := direntIter_nodots s ino
  cases nodots with
  | false => exact h
  | true =>
    intro hle
    have hsafe := h (hstatus ▸ hle)
    rcases hnodots with heq | heq
    · exact heq ▸ hsafe
    · exact heq ▸ (hsafe.next false).next false

end Scans

def blankDir : State := State.mounted wideVolume (fun b i =>
  -- the inode table in the group descriptor, the size and the first block of inode 2
  if b = 2 ∧ i = 8 then 5 else if b = 5 ∧ i = 133 then 4 else if b = 5 ∧ i = 168 then 8 else 0) 0 0

/-- A record of size 0, behind which the scan does not get on. -/
theorem blank_directory_hangs : (direntIter blankDir 2 false).2 = 0 ∧
    (direntIter blankDir 2 false).1.iter.block = 8 ∧ ¬Safe (direntIter blankDir 2 false).1 := by
  refine ⟨by decide +kernel, by decide +kernel, fun h => ?_⟩
  have hptr : (direntIter blankDir 2 false).1.iter.ptr = some 0 := by decide +kernel
  exact h.recSize_ne hptr (by decide +kernel)

end Novino.Ext2
