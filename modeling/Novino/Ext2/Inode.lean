import Novino.Ext2.Alloc

/-! Inodes: attributes, the walk of the block pointers, allocation, truncation and expansion
    (`ext2_inode_settime` to `ext2_inode_expand`). -/

namespace Novino.Ext2
open State

/-! ### Attributes -/

inductive TimeField where
  | atime | ctime | dtime | mtime
  deriving DecidableEq, Repr

variable (s : State) (inode : Addr) (block ino : Nat)

/-- `ext2_inode_settime` for one field: every field but the change time sets the change time too. -/
def inodeSettime (dp : Addr) : TimeField → State
  | .atime => (s.set32 dp Inode.atime s.now).set32 dp Inode.ctime s.now
  | .ctime => s.set32 dp Inode.ctime s.now
  | .dtime => (s.set32 dp Inode.dtime s.now).set32 dp Inode.ctime s.now
  | .mtime => (s.set32 dp Inode.mtime s.now).set32 dp Inode.ctime s.now

def typeBits (flags : Nat) : Nat :=
  if flags &&& I_DIR ≠ 0 then 0x4000 else if flags &&& I_FILE ≠ 0 then 0x8000
  else if flags &&& I_SYMLINK ≠ 0 then 0xA000 else 0

def inodeSetattr (dp : Addr) (sp : VInode) : State :=
  let s := s.set16 dp Inode.mode sp.mode
  let s := s.set32 dp Inode.atime sp.atime
  let s := s.set32 dp Inode.ctime sp.ctime
  let s := s.set32 dp Inode.mtime sp.mtime
  let s := s.set16 dp Inode.uid sp.uid
  let s := s.set16 dp Inode.gid sp.gid
  s.set16 dp Inode.mode (s.u16 dp Inode.mode ||| typeBits sp.flags)

def typeFlags (type : Nat) : Nat :=
  if type = 0x04 then I_DIR else if type = 0x08 then I_FILE else if type = 0x0A then I_SYMLINK else 0

/-- `ext2_inode_getattr`: the number stays when `ino` is zero. -/
def inodeGetattr (dp : VInode) (sp : Addr) (ino : Nat) : VInode where
  ino := if ino ≠ 0 then ino else dp.ino
  flags := typeFlags (s.u16 sp Inode.mode / 4096)
  mode := s.u16 sp Inode.mode % 4096
  links := s.u16 sp Inode.links
  uid := s.u16 sp Inode.uid
  gid := s.u16 sp Inode.gid
  size := s.u32 sp Inode.size
  blocks := s.u32 sp Inode.sectors / s.sb.sectorsPerBlock
  blksz := s.sb.blockSize
  atime := s.u32 sp Inode.atime
  mtime := s.u32 sp Inode.mtime
  ctime := s.u32 sp Inode.ctime

/-! ### Block pointers -/

def Ibw.takeData (ibw : Ibw) : Ibw := { ibw with dbNext := ibw.dbNext + 1, dbCount := dec64 ibw.dbCount }
def Ibw.takeIndirect (ibw : Ibw) : Ibw := { ibw with ibNext := ibw.ibNext + 1, ibCount := dec64 ibw.ibCount }

def inodeDirectBlock (offset : Nat) (ibw : Ibw) : State × Nat × Ibw :=
  let next := s.u32 inode (Inode.block offset)
  if next = 0 ∧ ibw.create then
    if offset < 12 then (s.set32 inode (Inode.block offset) ibw.dbNext, ibw.dbNext, ibw.takeData)
    else ((initCached s ibw.ibNext).1.set32 inode (Inode.block offset) ibw.ibNext, ibw.ibNext, ibw.takeIndirect)
  else (s, next, ibw)

/-- `ext2_inode_indirect_block`: whether the pointers of the block are returned. -/
def inodeIndirectBlock (offset : Nat) (ibw : Ibw) (data : Bool) : State × Bool × Ibw :=
  match readCached s block false with
  | (s, false) => (s, false, ibw)
  | (s, true) =>
    let s := s.bound (4 * offset + 4 ≤ s.sb.blockSize)
    if s.u32 ⟨block, 0⟩ (4 * offset) = 0 ∧ ibw.create then
      if data then (writeCached (s.set32 ⟨block, 0⟩ (4 * offset) ibw.dbNext) block, true, ibw.takeData)
      else
        (writeCached ((initCached s ibw.ibNext).1.set32 ⟨block, 0⟩ (4 * offset) ibw.ibNext) block, true,
          ibw.takeIndirect)
    else (s, true, ibw)

def State.pushLink : State := { s with ptrLinks := s.ptrLinks ++ [block] }

/-- A level of the walk above the last: the block that entry `offset` of `block` points to, or zero. -/
def walkInner (offset : Nat) (ibw : Ibw) : State × Nat × Ibw :=
  match inodeIndirectBlock s block offset ibw false with
  | (s, false, ibw) => (s, 0, ibw)
  | (s, true, ibw) => (s, s.u32 ⟨block, 0⟩ (4 * offset), ibw)

/-- The last level of the walk: `block` becomes the pointer block of the cached lookup. -/
def walkLeaf (offset : Nat) (ibw : Ibw) : State × Nat × Ibw :=
  match inodeIndirectBlock s block offset ibw true with
  | (s, false, ibw) => (s, 0, ibw)
  | (s, true, ibw) =>
    ({ s with ptrData := some block, ptrBlock := block }, s.u32 ⟨block, 0⟩ (4 * offset), ibw)

/-- The levels of the walk below `block`, one for each of the offsets. A block that is entered at its first pointer
    is recorded as a link. -/
def walkDown (s : State) (block : Nat) (ibw : Ibw) : List Nat → State × Nat × Ibw
  | [] => (s, block, ibw)
  | [offset] => walkLeaf (if offset = 0 then s.pushLink block else s) block offset ibw
  | offset :: offsets =>
    match walkInner (if offset = 0 then s.pushLink block else s) block offset ibw with
    | (s, next, ibw) => if next = 0 then (s, 0, ibw) else walkDown s next ibw offsets

def walkFrom (root : Nat) (offsets : List Nat) (ibw : Ibw) : State × Nat × Ibw :=
  match inodeDirectBlock s inode root ibw with
  | (s, block, ibw) => if block = 0 then (s, 0, ibw) else walkDown s block ibw offsets

def walkSingly (offset : Nat) (ibw : Ibw) : State × Nat × Ibw :=
  walkFrom s inode 12 [offset] ibw

def walkDoubly (doubly singly : Nat) (ibw : Ibw) : State × Nat × Ibw :=
  walkFrom s inode 13 [doubly, singly] ibw

def walkTriply (triply doubly singly : Nat) (ibw : Ibw) : State × Nat × Ibw :=
  walkFrom s inode 14 [triply, doubly, singly] ibw

/-- The answer of the cached lookup. Its pointer is valid while the block it points into is cached. -/
def cachedBlock (offset : Nat) (ibw : Ibw) : State × Nat × Ibw :=
  match s.ptrData with
  | none => ({ s with oob := true }, 0, ibw)
  | some p =>
    let s := s.bound (s.list.find p).isSome
    let block := s.u32 ⟨p, 0⟩ (4 * offset)
    if block = 0 ∧ ibw.create then
      (writeCached (s.set32 ⟨p, 0⟩ (4 * offset) ibw.dbNext) s.ptrBlock, ibw.dbNext, ibw.takeData)
    else (s, block, ibw)

def inodeSetBlock (offset : Nat) (ibw : Ibw) : State × Nat × Ibw :=
  let ident := s.u32 inode (Inode.block 0)
  let s := { s with ptrLinks := [] }
  let singly := s.sb.singly
  let doubly := singly * singly
  if offset < 12 then inodeDirectBlock s inode offset ibw
  else
    let offset := offset - 12
    let index := offset / singly
    if s.ptrIdent = ident ∧ s.ptrIndex = index then cachedBlock s (offset % singly) ibw
    else
      let s := { s with ptrIdent := ident, ptrIndex := index }
      if offset < singly then walkSingly s inode offset ibw
      else
        let offset := offset - singly
        if offset < doubly then walkDoubly s inode (offset / singly) (offset % singly) ibw
        else
          let offset := offset - doubly
          walkTriply s inode (offset / doubly) (offset % doubly / singly) (offset % singly) ibw

def inodeGetBlock (offset : Nat) : State × Nat :=
  match inodeSetBlock s inode offset { create := false } with
  | (s, block, _) => (s, block)

/-! ### Reading, freeing and allocating inodes -/

def inodeRead (dirty : Bool) : State × Option Addr :=
  let bg := sub32 ino 1 / s.sb.inodesPerGroup
  let ino := sub32 ino 1 % s.sb.inodesPerGroup
  let block := ino * s.sb.inodeSize / s.sb.blockSize
  let offset := ino * s.sb.inodeSize % s.sb.blockSize
  match bgdRead s bg false with
  | (s, none) => (s, none)
  | (s, some bgd) =>
    let block := add32 block (s.u32 bgd Bgd.inodeTable)
    match readCached s block dirty with
    | (s, false) => (s, none)
    | (s, true) => (s, some ⟨block, offset⟩)

def markInodeFree (bgd : Addr) (bitmap pos : Nat) : State :=
  let s := s.bound (pos < 8 * s.sb.blockSize)
  let s := s.poke bitmap (·.clrBit pos)
  let s := s.set16 bgd Bgd.freeInodes (s.u16 bgd Bgd.freeInodes + 1)
  { s with freeInodes := add32 s.freeInodes 1 }

def inodeFree : State × Int :=
  match inodeRead s ino true with
  | (s, none) => (s, s.errno)
  | (s, some inode) =>
    let bg := sub32 ino 1 / s.sb.inodesPerGroup
    let pos := sub32 ino 1 % s.sb.blocksPerGroup
    match bgdRead s bg true with
    | (s, none) => (s, s.errno)
    | (s, some bgd) =>
      let bitmap := s.u32 bgd Bgd.inodeBitmap
      match readCached s bitmap true with
      | (s, false) => (s, s.errno)
      | (s, true) => (inodeSettime (markInodeFree s bgd bitmap pos) inode .dtime, 0)

/-- `__builtin_ctz(~byte)`: the lowest clear bit of a byte that is not full. -/
def ctzNot (byte : Byte) : Nat := ((List.range 8).find? fun j => !byte.getLsbD j).getD 0

/-- The loop of `ext2_inode_alloc` over `n` bytes from `i` on: the position of the first clear bit. -/
def firstClear (bitmap : Block) : (n i : Nat) → Option Nat
  | 0, _ => none
  | n + 1, i => if bitmap i = 0xFF#8 then firstClear bitmap n (i + 1) else some (ctzNot (bitmap i) + 8 * i)

def markInodeUsed (bgd : Addr) (bitmap : Nat) (pos : Option Nat) : State :=
  let s := s.poke bitmap fun b => pos.elim b b.setBit
  let s := s.set16 bgd Bgd.freeInodes (s.u16 bgd Bgd.freeInodes + (2 ^ 16 - 1))
  { s with freeInodes := sub32 s.freeInodes 1 }

/-- The part of `ext2_inode_alloc` that marks an inode: its number, or none when a read failed. A full bitmap gives the
first inode of the group. -/
def inodeTake (bg : Nat) : State × Option Nat :=
  match pickGroup s bg Bgd.freeInodes with
  | (s, .error e) => ({ s with errno := e }, none)
  | (s, .ok (bg, bgd)) =>
    let bitmap := s.u32 bgd Bgd.inodeBitmap
    match readCached s bitmap true with
    | (s, false) => (s, none)
    | (s, true) =>
      let pos := firstClear (s.data bitmap) s.sb.blockSize 0
      (markInodeUsed s bgd bitmap pos, some (add32 (1 + pos.getD 0) (bg * s.sb.inodesPerGroup)))

def inodeAlloc (bg links : Nat) (ip : VInode) : State × Option Addr × VInode :=
  match inodeTake s bg with
  | (s, none) => (s, none, ip)
  | (s, some ino) =>
    let ip := { ip with ino }
    match inodeRead s ino true with
    | (s, none) => (s, none, ip)
    | (s, some inode) =>
      let s := s.poke inode.block (·.clear inode.off s.sb.inodeSize)
      let s := s.set16 inode Inode.links links
      (inodeSetattr s inode ip, some inode, ip)

/-! ### Truncation -/

/-- The inner loop of `ext2_inode_truncate` that records the indirect blocks of a walk in the block buffer. -/
def pushLinks (s : State) (nlinks : Nat) : List Nat → State × Nat
  | [] => (s, nlinks)
  | l :: ls =>
    if l = 0 then (s, nlinks)
    else
      let s := s.bound (4 * nlinks + 4 ≤ s.sb.blockSize)
      pushLinks { s with blkbuf := s.blkbuf.wr32 (4 * nlinks) l } (nlinks + 1) ls

structure OpenRun where
  start : Nat
  prev : Nat
  deriving DecidableEq, Repr

/-- Adds a block to the open run, freeing the run first when the block does not continue it. -/
def freeStep (run : OpenRun) (block : Nat) : State × OpenRun :=
  if block ≠ run.prev + 1 then ((blocksFree s run.start (run.prev - run.start + 1)).1, ⟨block, block⟩)
  else (s, { run with prev := block })

def truncateData (s : State) (inode : Addr) (run : OpenRun) (nlinks : Nat) (i : Nat) :
    Nat → State × Option (OpenRun × Nat)
  | 0 => (s, some (run, nlinks))
  | n + 1 =>
    match inodeGetBlock s inode i with
    | (s, block) =>
      if block = 0 then (s, none)
      else
        match pushLinks s nlinks s.ptrLinks with
        | (s, nlinks) =>
          match freeStep s run block with
          | (s, run) => truncateData s inode run nlinks (i + 1) n

def truncateLinks (s : State) (run : OpenRun) (i : Nat) : Nat → State × OpenRun
  | 0 => (s, run)
  | n + 1 =>
    match freeStep s run (s.blkbuf.rd32 (4 * i)) with
    | (s, run) => truncateLinks s run (i + 1) n

def freeLinks (nlinks : Nat) : State :=
  if nlinks = 0 then s
  else
    let block := s.blkbuf.rd32 0
    match truncateLinks s ⟨block, block⟩ 1 (nlinks - 1) with
    | (s, run) => (blocksFree s run.start (run.prev - run.start + 1)).1

def clearPointers : State :=
  (List.range 15).foldl (fun s i => s.set32 inode (Inode.block i) 0) s

def emptyInode : State :=
  let s := inodeSettime s inode .mtime
  let s := s.set32 inode Inode.size 0
  let s := s.set32 inode Inode.sectors 0
  clearPointers s inode

/-- The part of `ext2_inode_truncate` behind the reading of the inode. -/
def truncateInode : State × Int :=
  let count := s.u32 inode Inode.sectors / s.sb.sectorsPerBlock
  let block := s.u32 inode (Inode.block 0)
  if block = 0 then (s, 0)
  else
    let ibd := blocksDist s.sb count true
    match truncateData s inode ⟨block, block⟩ 0 1 (ibd.dnum - 1) with
    | (s, none) => (s, - EIO)
    | (s, some (run, nlinks)) =>
      let s := (blocksFree s run.start (run.prev - run.start + 1)).1
      if nlinks ≠ ibd.inum then (s, - EIO)
      else (emptyInode (freeLinks s nlinks) inode, 0)

def inodeTruncate : State × Int :=
  match inodeRead s ino true with
  | (s, none) => (s, s.errno)
  | (s, some inode) => truncateInode s inode

/-! ### Expansion -/

/-- The loop of `ext2_inode_expand` that links the data blocks `i`, `i + 1`, …: `total` blocks are still to be
    allocated. -/
def expandLoop (s : State) (inode : Addr) (bg total start : Nat) (ibw : Ibw) (i : Nat) : Nat → State × Int
  | 0 => (s, 0)
  | n + 1 =>
    if ibw.dbCount = 0 then
      match blocksAlloc s bg total start with
      | (s, out) =>
        if out.status < 0 then (s, out.status)
        else
          match inodeSetBlock s inode i { ibw with dbCount := out.status.toNat, dbNext := out.start } with
          | (s, _, ibw) => expandLoop s inode out.bg out.count out.start ibw (i + 1) n
    else
      match inodeSetBlock s inode i ibw with
      | (s, _, ibw) => expandLoop s inode bg total start ibw (i + 1) n

def inodeExpand (goal : Nat) (grow : Bool) : State × Int :=
  match inodeRead s ino true with
  | (s, none) => (s, s.errno)
  | (s, some inode) =>
    let bg := sub32 ino 1 / s.sb.inodesPerGroup
    let count := s.u32 inode Inode.sectors / s.sb.sectorsPerBlock
    -- block distribution before (b) and after (a) expansion
    let b := blocksDist s.sb count true
    let a := blocksDist s.sb goal false
    if a.dnum ≤ b.dnum then (s, 0)
    else
      match blocksAlloc s bg (sub32 a.inum b.inum) 0 with
      | (s, out) =>
        if out.status < 0 then (s, out.status)
        else if out.count ≠ 0 then (s, -ENOSPC)
        else
          let ibw : Ibw := { create := true, ibCount := out.status.toNat, ibNext := out.start }
          match expandLoop s inode out.bg (a.dnum - b.dnum) 0 ibw b.dnum (a.dnum - b.dnum) with
          | (s, status) =>
            if status < 0 then (s, status)
            else
              let s := s.set32 inode Inode.sectors ((a.inum + a.dnum) * s.sb.sectorsPerBlock)
              let s := if grow then s.set32 inode Inode.size (a.dnum * s.sb.blockSize) else s
              (s, 0)

end Novino.Ext2
