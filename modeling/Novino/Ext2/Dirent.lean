import Novino.Ext2.Inode

/-! Directory entries: iterating, unlinking, linking and relinking (`ext2_dirent_next` to
    `ext2_dirent_check_empty`). Names are C strings without their final NUL. -/

namespace Novino.Ext2
open State

abbrev Name := List Byte

variable (s : State) (dp : Addr) (dir : VInode)

/-- The name that `ext2_dirent_next` copies from a record: at most `length` bytes, up to a NUL. -/
def State.dirName : Name :=
  ((s.data dp.block).rdBytes (dp.off + Dentry.name) (s.u8 dp Dentry.length)).takeWhile (· != 0)

/-- How far `ext2_dirent_next` looks into a record: its size, and for the name its length and the bytes up to a NUL. -/
def State.looks (copy : Bool) (dp : Addr) : Nat :=
  let length := s.u8 dp Dentry.length
  if copy then if length = 0 then 7 else Dentry.name + min length ((s.dirName dp).length + 1) else 6

/-- `ext2_dirent_next`: the current record. When the next block cannot be read, the record is lost. `copy` tells
    whether the caller wants the name. -/
def direntNext (copy : Bool) : State × Option Addr :=
  match s.iter.ptr with
  | none => (s, none)
  | some off =>
    let dp : Addr := ⟨s.iter.block, off⟩
    let s := s.bound (off + s.looks copy dp ≤ s.sb.blockSize)
    let ptr := off + s.u16 dp Dentry.size
    if ptr < s.sb.blockSize then ({ s with iter := { s.iter with ptr := some ptr } }, some dp)
    else
      let s := { s with iter := { s.iter with ptr := none, offset := s.iter.offset + 1 } }
      if s.iter.offset < s.iter.count then
        match inodeGetBlock s s.iter.ip s.iter.offset with
        | (s, block) =>
          if block = 0 then (s, none)
          else
            match readCached s block false with
            | (s, false) => (s, none)
            | (s, true) => ({ s with iter := { s.iter with ptr := some 0, block } }, some dp)
      else (s, some dp)

/-- `ext2_dirent_iter`. Without a first block the iterator stays as it was. -/
def direntIter (ino : Nat) (nodots : Bool) : State × Int :=
  match inodeRead s ino false with
  | (s, none) => (s, s.errno)
  | (s, some ip) =>
    match inodeGetBlock s ip 0 with
    | (s, block) =>
      if block = 0 then (s, s.errno)
      else
        match readCached s block false with
        | (s, false) => (s, s.errno)
        | (s, true) =>
          let iter : Iter := { offset := 0, count := s.u32 ip Inode.size / s.sb.blockSize, block, ptr := some 0, ip }
          let s := { s with iter }
          -- skip . and .. entries
          if nodots then ((direntNext (direntNext s false).1 false).1, 0) else (s, 0)

/-- A loop `while(dp = ext2_dirent_next(...), dp)`, whose body may change the state and leave the loop at a record. A
loop that is not over when the fuel is used up never ends. -/
def direntLoop {σ : Type} (copy : Bool) (body : State → Addr → σ → State × σ × Bool) :
    (fuel : Nat) → State → σ → State × σ × Option Addr
  | 0, s, v => ({ s with hang := true }, v, none)
  | fuel + 1, s, v =>
    match direntNext s copy with
    | (s, none) => (s, v, none)
    | (s, some dp) =>
      match body s dp v with
      | (s, v, true) => (s, v, some dp)
      | (s, v, false) => direntLoop copy body fuel s v

/-- Records that all take at least one byte are visited in fewer rounds than the blocks have bytes. -/
def State.rounds : Nat := (s.iter.count + 1) * s.sb.blockSize + 1

/-- `ext2_dirent_walk`: `visit` stands for the two uses of an entry, `vfs_put_dirent` and the comparison with the
    name that is looked up. -/
def direntWalk {σ : Type} (s : State) (ino seek : Nat) (visit : σ → Name → VInode → σ × Bool) (v : σ) :
    State × Int × σ :=
  match direntIter s ino true with
  | (s, status) =>
    if status < 0 then (s, status, v)
    else
      let body (s : State) (dp : Addr) (v : Nat × σ) : State × (Nat × σ) × Bool :=
        let entry := s.u32 dp Dentry.inode
        if entry = 0 then (s, v, false)
        else if v.1 ≠ 0 then (s, (v.1 - 1, v.2), false)
        else
          let name := s.dirName dp
          match inodeRead s entry false with
          | (s, none) => (s, v, true)
          | (s, some ip) =>
            let zero : VInode := ⟨0, 0, 0, 0, 0, 0, 0, 0, 0, 0, 0, 0⟩
            match visit v.2 name (inodeGetattr s zero ip entry) with
            | (w, stop) => (s, (v.1, w), stop)
      match direntLoop true body s.rounds s (seek, v) with
      | (s, v, _) => (s, s.errno, v.2)

def lookupVisit (lookupName : Name) (found : Option VInode) (name : Name) (inode : VInode) : Option VInode × Bool :=
  if name = lookupName then (some inode, true) else (found, false)

/-- The search loop of `ext2_dirent_unlink`: leaves at the first record with the name, with the one before it. -/
def unlinkBody (name : Name) (s : State) (dp : Addr) (prev : Option Addr) : State × Option Addr × Bool :=
  if s.dirName dp = name then (s, prev, true) else (s, some dp, false)

/-- The part of `ext2_dirent_unlink` that takes record `dp` out: it is merged with the one before or marked as unused,
and a free record after it is merged as well. -/
def unlinkRecord (prev : Option Addr) (dp : Addr) : State :=
  let pblk := (prev.map (·.block)).getD 0
  match (if pblk = dp.block then
      match prev with
      | some p => (s.set16 p Dentry.size (s.u16 p Dentry.size + s.u16 dp Dentry.size), p)
      | none => ({ s with oob := true }, dp)
    else (s.set32 dp Dentry.inode 0, dp)) with
  | (s, prev) =>
    match direntNext s true with
    | (s, none) => writeCached s prev.block
    | (s, some next) =>
      let s := if prev.block = next.block ∧ s.u32 next Dentry.inode = 0 then
          s.set16 prev Dentry.size (s.u16 prev Dentry.size + s.u16 next Dentry.size)
        else s
      writeCached s prev.block

def direntUnlink (name : Name) (obj : VInode) : State × Int × VInode :=
  match direntIter s dir.ino true with
  | (s, status) =>
    if status < 0 then (s, status, dir)
    else
      match direntLoop true (unlinkBody name) s.rounds s none with
      | (s, _, none) => (s, -ENOENT, dir)
      | (s, prev, some dp) =>
        let s := unlinkRecord s prev dp
        -- adjust parent inode
        match inodeRead s dir.ino true with
        | (s, none) => ({ s with oob := true }, 0, dir)
        | (s, some inode) =>
          let s := inodeSettime s inode .mtime
          let s := if obj.isDir then s.set16 inode Inode.links (s.u16 inode Inode.links + (2 ^ 16 - 1)) else s
          (s, 0, inodeGetattr s dir inode 0)

def State.dirUsed : Nat :=
  if s.u32 dp Dentry.inode ≠ 0 then align4 (8 + s.u8 dp Dentry.length) else 0

/-- The search loop of `ext2_dirent_link`: leaves at the first record with enough space. -/
def linkBody (req : Nat) (s : State) (dp : Addr) (_ : Unit) : State × Unit × Bool :=
  (s, (), decide (s.u16 dp Dentry.size - s.dirUsed dp > req))

/-- The record that the new entry goes into: what a live record leaves free is split off. -/
def linkSplit : State × Addr :=
  if s.u32 dp Dentry.inode ≠ 0 then
    let used := s.dirUsed dp
    let avail := s.u16 dp Dentry.size - used
    let next : Addr := ⟨dp.block, dp.off + used⟩
    (writeCached ((s.set16 dp Dentry.size used).set16 next Dentry.size avail) dp.block, next)
  else (writeCached s dp.block, dp)

def linkGrow (inode : Addr) : State × Except Int Addr :=
  let count := 1 + s.u32 inode Inode.sectors / s.sb.sectorsPerBlock
  match inodeExpand s dir.ino count true with
  | (s, status) =>
    if status < 0 then (s, .error status)
    else
      match inodeGetBlock s inode (count - 1) with
      | (s, block) =>
        if block = 0 then (s, .error s.errno)
        else
          match readCached s block true with
          | (s, false) => (s, .error s.errno)
          | (s, true) => (s.set16 ⟨block, 0⟩ Dentry.size s.sb.blockSize, .ok ⟨block, 0⟩)

def direntType (flags : Nat) : Option Nat :=
  if flags &&& I_FILE ≠ 0 then some 1 else if flags &&& I_DIR ≠ 0 then some 2
  else if flags &&& I_SYMLINK ≠ 0 then some 7 else none

/-- The entry itself: inode, name and, with the feature, the type. The length is a byte. -/
def linkWrite (name : Name) (obj : VInode) : State :=
  let s := s.set32 dp Dentry.inode obj.ino
  let s := s.set8 dp Dentry.length name.length
  let s := s.poke dp.block (·.wrBytes (dp.off + Dentry.name) (name.take (name.length % 256)))
  if s.sb.featuresRequired &&& REQ_DIRENT_TYPE ≠ 0 then
    match direntType obj.flags with
    | some t => s.set8 dp Dentry.type t
    | none => s
  else s

def direntLink (name : Name) (obj : VInode) : State × Int × VInode :=
  let req := align4 (8 + name.length)
  match inodeRead s dir.ino true with
  | (s, none) => (s, s.errno, dir)
  | (s, some inode) =>
    match direntIter s dir.ino false with
    | (s, status) =>
      if status < 0 then (s, status, dir)
      else
        match (match direntLoop false (linkBody req) s.rounds s () with
          | (s, _, some dp) => let (s, dp) := linkSplit s dp; (s, .ok dp)
          | (s, _, none) => linkGrow s dir inode : State × Except Int Addr) with
        | (s, .error status) => (s, status, dir)
        | (s, .ok dp) =>
          let s := linkWrite s dp name obj
          -- adjust parent inode
          let s := inodeSettime s inode .mtime
          let s := if obj.isDir then s.set16 inode Inode.links (s.u16 inode Inode.links + 1) else s
          (s, 0, inodeGetattr s dir inode 0)

def direntRelink (name : Name) (obj : VInode) : State × Int :=
  match direntIter s dir.ino true with
  | (s, status) =>
    if status < 0 then (s, status)
    else
      match direntLoop true (unlinkBody name) s.rounds s none with
      | (s, _, none) => (s, -ENOENT)
      | (s, _, some dp) =>
        let s := s.set32 dp Dentry.inode obj.ino
        let s := writeCached s dp.block
        match inodeRead s dir.ino true with
        | (s, none) => ({ s with oob := true }, 0)
        | (s, some inode) => (inodeSettime s inode .mtime, 0)

/-- `ext2_dirent_check_empty`: a directory without subdirectories has two links, and no live entry is left. -/
def direntCheckEmpty (ino : Nat) : State × Int :=
  match inodeRead s ino false with
  | (s, none) => (s, s.errno)
  | (s, some ip) =>
    if s.u16 ip Inode.links > 2 then (s, -ENOTEMPTY)
    else
      match direntIter s ino true with
      | (s, status) =>
        if status < 0 then (s, status)
        else
          match direntLoop false (fun s dp (_ : Unit) => (s, (), s.u32 dp Dentry.inode != 0)) s.rounds s () with
          | (s, _, some _) => (s, -ENOTEMPTY)
          | (s, _, none) => (s, s.errno)

end Novino.Ext2
