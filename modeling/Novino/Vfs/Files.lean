import Novino.Vfs.Names
import Novino.Ext2.File

/-! Descriptors, open files and processes (`kernel/vfs/fd.c` and the operations of the VFS on descriptors). Files
    without a dentry (pipes and sockets) are left out. -/

namespace Novino.Vfs
open Ext2 (Name toInt32 I_FILE I_DIR ENOENT ENOMEM)

/-- The size that `vfs_read` passes on for a regular file. -/
def readSize (seek size isize : Nat) : Nat :=
  if (seek + size) % 2 ^ 64 > isize then (isize + (2 ^ 64 - seek)) % 2 ^ 64 else size

def toInt64 (n : Int) : Int := (n + 2 ^ 63) % 2 ^ 64 - 2 ^ 63

/-- The position that `vfs_seek` goes to, for the origins `SEEK_CUR`, `SEEK_END` and `SEEK_SET`. -/
def seekTarget (seek isize : Nat) (offset : Int) : Nat → Int
  | 1 => toInt64 (seek + offset)
  | 2 => toInt64 (isize + offset)
  | _ => toInt64 offset

structure Dirent where
  length : Nat
  flags : Nat
  name : Name
  deriving DecidableEq, Repr

/-- The record that `vfs_put_dirent` works on (`vfs_rd_t`), with the entries that are in the buffer. -/
structure Rd where
  parent : Option Nat := none
  status : Int := 0
  dirent : List Dirent := []
  size : Nat
  pos : Nat := 0
  deriving DecidableEq, Repr

def direntLen (name : Name) : Nat := 1 + 4 + name.length

namespace State
variable {Φ : Type} (s : State Φ) (p f dp : Nat) (id : Nat) (rd : Rd)

def fdCreate : State Φ × Option (Nat × Nat) :=
  match s.alloc with
  | (s, false) => (s, none)
  | (s, true) =>
    match s.alloc with
    | (s, false) => (s, none)
    | (s, true) =>
      let f := s.files
      let id := (s.proc p).next
      let s := { s with files := s.files + 1 }.modifyFile f fun _ => { File.zero with refs := 1 }
      (s.modifyProc p fun q => { q with fds := (id, f) :: q.fds, next := id + 1 }, some (id, f))

theorem fdCreate_cases : (∃ n, s.fdCreate p = ({ s with mems := n, fault := true }, none)) ∨
    ∃ n, s.fdCreate p = (({ s with mems := n, files := s.files + 1 }.modifyFile s.files fun _ =>
      { File.zero with refs := 1 }).modifyProc p fun q =>
        { q with fds := (q.next, s.files) :: q.fds, next := q.next + 1 },
      some ((s.proc p).next, s.files)) := by
  unfold fdCreate alloc
  cases hm : s.mem s.mems with
  | false => exact .inl ⟨s.mems + 1, rfl⟩
  | true =>
    cases hm' : s.mem (s.mems + 1) with
    | false =>
      refine .inl ⟨s.mems + 2, ?_⟩
      simp only [hm']
    | true =>
      refine .inr ⟨s.mems + 2, ?_⟩
      simp only [hm']
      rfl

def fdFind : Option Nat := ((s.proc p).fds.find? (·.1 == id)).map (·.2)

/-- `fd_delete`: the file is returned when this was its last reference. -/
def fdDelete (f : Nat) : State Φ × Option Nat :=
  let s := s.modifyProc p fun q => { q with fds := q.fds.erase (id, f) }
  let s := s.modifyFile f fun x => { x with refs := dec x.refs }
  (s, if (s.file f).refs = 0 then some f else none)

def fdClone (target : Nat) : State Φ :=
  match s.alloc with
  | (s, false) => s
  | (s, true) =>
    let id := (s.proc target).next
    let s := s.modifyFile f fun x => { x with refs := x.refs + 1 }
    s.modifyProc target fun q => { q with fds := (id, f) :: q.fds, next := id + 1 }

/-! ### Opening and closing -/

def openCheck (flags : Nat) : Int :=
  if has flags O_DIR && !s.isDir dp then -ENOTDIR
  else if !has flags O_DIR && s.isDir dp then -EISDIR
  else if has flags O_READ && (s.ops dp).read.isNone then -ENOTSUP
  else if has flags O_WRITE && (s.ops dp).write.isNone then -ENOTSUP
  else if has flags O_TRUNC && !has flags O_WRITE then -EINVAL
  else if has flags O_TRUNC && (s.ops dp).truncate.isNone then -ENOTSUP
  else 0

def openCall : State Φ × Int :=
  match (s.ops dp).openFile with
  | none => (s, 0)
  | some openFile =>
    match openFile s.store (s.inode dp) with
    | (store, status) => ({ s with store }, status)

/-- The call of `truncate` of the file system for an open with `O_TRUNC`. -/
def truncateCall (flags : Nat) : State Φ × Int :=
  match (s.ops dp).truncate with
  | none => (s, 0)
  | some truncate =>
    if has flags O_TRUNC then
      match truncate s.store (s.inode dp) with
      | (store, status, ip) => ({ s with store }.modify dp fun d => { d with inode := some ip }, status)
    else (s, 0)

/-- The last part of `vfs_open`, for a positive dentry that passed the checks. -/
def openFile (dp flags : Nat) : State Φ × Int :=
  match s.fdCreate p with
  | (s, none) => ({ s with fault := true }, 0)
  | (s, some (id, f)) =>
    let s := s.modifyFile f fun x => { x with flags, dentry := dp }
    match s.openCall dp with
    | (s, status) =>
      if status < 0 then ((s.fdDelete p id f).1, status)
      else
        match s.truncateCall dp flags with
        | (s, status) =>
          if status < 0 then ((s.fdDelete p id f).1, status)
          else
            let s := if has flags O_APPEND then s.modifyFile f fun x => { x with seek := (s.inode dp).size } else s
            (s.dentryOpen dp, id)

def vfsOpen (path : Path) (flags : Nat) : State Φ × Int :=
  if has flags O_DIR ∧ flags ≠ O_DIR then (s, -EINVAL)
  else
    match s.vfsWalkPath p path false with
    | (s, .error e) => (s, e)
    | (s, .ok dp) =>
      match (if s.isPositive dp then (s, 0)
        else if has flags O_CREATE then s.vfsCreate p path 0o644 else (s, -ENOENT) : State Φ × Int) with
      | (s, status) =>
        if status < 0 then (s, status)
        else if s.openCheck dp flags < 0 then (s, s.openCheck dp flags)
        else s.openFile p dp flags

def vfsClose : State Φ × Int :=
  match s.fdFind p id with
  | none => (s, -EBADF)
  | some f =>
    match s.fdDelete p id f with
    | (s, none) => (s, 0)
    | (s, some f) =>
      let dp := (s.file f).dentry
      match (match (s.ops dp).closeFile with
        | none => (s, 0)
        | some closeFile =>
          match closeFile s.store (s.inode dp) with
          | (store, status) => ({ s with store }, status) : State Φ × Int) with
      | (s, status) => (s.dentryClose dp, status)

/-! ### Reading, writing and seeking -/

/-- `vfs_read` up to its call of the file system: the file, the function and the size that it is given, or the status
when there is no call. -/
def readCall (size : Nat) : Except Int (Nat × (Φ → Inode → Nat → Nat → Φ × Int × List Byte) × Nat) :=
  match s.fdFind p id with
  | none => .error (-EBADF)
  | some f =>
    let file := s.file f
    let ip := s.inode file.dentry
    if has file.flags O_DIR then .error (-EISDIR)
    else if !has file.flags O_READ then .error (-EBADF)
    else
      match (s.ops file.dentry).read with
      | none => .error (-ENOTSUP)
      | some read =>
        let size := if has ip.flags I_FILE then readSize file.seek size ip.size else size
        if has ip.flags I_FILE && size == 0 then .error 0 else .ok (f, read, size)

def vfsRead (size : Nat) : State Φ × Int × List Byte :=
  match s.readCall p id size with
  | .error status => (s, status, [])
  | .ok (f, read, size) =>
    let ip := s.inode (s.file f).dentry
    match read s.store ip (s.file f).seek size with
    | (store, status, bytes) =>
      let s := { s with store }
      if status < 0 then (s, status, bytes)
      else if has ip.flags I_FILE then
        (s.modifyFile f fun x => { x with seek := (x.seek + status.toNat) % 2 ^ 64 }, status, bytes)
      else (s, status, bytes)

def vfsWrite (buf : List Byte) : State Φ × Int :=
  match s.fdFind p id with
  | none => (s, -EBADF)
  | some f =>
    let dp := (s.file f).dentry
    let flags := (s.file f).flags
    if has flags O_DIR then (s, -EISDIR)
    else if !has flags O_WRITE then (s, -EBADF)
    else
      match (s.ops dp).write with
      | none => (s, -ENOTSUP)
      | some write =>
        let s := if has flags O_APPEND then s.modifyFile f fun x => { x with seek := (s.inode dp).size } else s
        match write s.store (s.inode dp) (s.file f).seek buf with
        | (store, status, ip) =>
          let s := { s with store }.modify dp fun d => { d with inode := some ip }
          if status < 0 then (s, status)
          else if has ip.flags I_FILE then
            (s.modifyFile f fun x => { x with seek := (x.seek + status.toNat) % 2 ^ 64 }, status)
          else (s, status)

/-- `vfs_seek`; `offset > size` compares unsigned numbers. -/
def vfsSeek (offset : Int) (origin : Nat) : State Φ × Int :=
  match s.fdFind p id with
  | none => (s, -EBADF)
  | some f =>
    let file := s.file f
    let ip := s.inode file.dentry
    if has file.flags O_DIR then (s, -EISDIR)
    else
      match (s.ops file.dentry).seek with
      | some seek =>
        match seek s.store ip file.seek offset origin with
        | (store, status, pos) => ({ s with store }.modifyFile f fun x => { x with seek := pos }, status)
      | none =>
        let offset := seekTarget file.seek ip.size offset origin
        if offset < 0 ∨ ip.size < offset.toNat then (s, -EINVAL)
        else (s.modifyFile f fun x => { x with seek := offset.toNat }, toInt32 offset.toNat)

/-! ### Reading of directories -/

/-- `vfs_put_dirent`: whether the file system goes on. -/
def putDirent (name : Name) (inode : Inode) : State Φ × Rd × Bool :=
  if 2 ≤ (s.file f).seek ∧ (name = dot ∨ name = dotdot) then (s, rd, true)
  else
    let len := direntLen name
    if rd.pos + len < rd.size then
      let s := s.modifyFile f fun x => { x with seek := x.seek + 1 }
      let rd : Rd := { rd with
        pos := rd.pos + len, status := (rd.pos + len : Nat)
        dirent := rd.dirent ++ [⟨len % 2 ^ 16, inode.flags, name⟩] }
      match rd.parent with
      | none => (s, rd, true)
      | some parent =>
        if (s.dcacheLookup parent name).isSome then (s, rd, true)
        else
          match s.dcacheAppend parent name (some inode) with
          | (s, some _) => (s, rd, true)
          | (s, none) => (s, { rd with status := -ENOMEM }, false)
    else (s, if rd.pos = 0 then { rd with status := -EINVAL } else rd, false)

/-- Puts entries one after the other until one is refused: how many were taken. -/
def putAll (s : State Φ) (f : Nat) (rd : Rd) : List (Name × Inode) → State Φ × Rd × Nat
  | [] => (s, rd, 0)
  | (name, inode) :: entries =>
    match s.putDirent f rd name inode with
    | (s, rd, false) => (s, rd, 0)
    | (s, rd, true) =>
      match putAll s f rd entries with
      | (s, rd, n) => (s, rd, n + 1)

/-- The entries `.` and `..`, which `vfs_readdir` puts itself. -/
def putDots : State Φ × Rd × Bool :=
  let dp := (s.file f).dentry
  match (if (s.file f).seek = 0 then s.putDirent f rd dot (s.inode dp) else (s, rd, true)) with
  | (s, rd, false) => (s, rd, false)
  | (s, rd, true) =>
    if (s.file f).seek = 1 then s.putDirent f rd dotdot (s.inode (s.dentry dp).parent) else (s, rd, true)

/-- The loop over the children of a cached directory that skips `seek` positive ones. -/
def skipPositive : Nat → List Nat → List Nat
  | 0, ds => ds
  | _ + 1, [] => []
  | n + 1, d :: ds => if s.isPositive d then skipPositive n ds else skipPositive (n + 1) ds

def cachedEntries (seek : Nat) : List (Name × Inode) :=
  ((s.skipPositive seek (s.dentry dp).children).filter s.isPositive).map fun d => ((s.dentry d).name, s.inode d)

def readEntries : State Φ × Rd × Int :=
  let dp := (s.file f).dentry
  let seek := (s.file f).seek - 2
  if dp = root then
    match s.putAll f rd ((s.mpl.drop seek).map fun mp => (mp.name, s.inode mp.dentry)) with
    | (s, rd, _) => (s, rd, rd.status)
  else if (s.dentry dp).cached then
    match s.putAll f rd (s.cachedEntries dp seek) with
    | (s, rd, _) => (s, rd, rd.status)
  else
    let listing := (s.ops dp).readdir s.store (s.inode dp) seek
    match s.putAll f { rd with parent := some dp } listing.entries with
    | (s, rd, n) =>
      let s := { s with store := (listing.done n).1 }
      let status := (listing.done n).2
      if status < 0 then (s, rd, status)
      else if rd.status = 0 ∧ (s.file f).seek = (s.dentry dp).positive + 2 then
        (s.modify dp fun d => { d with cached := true }, rd, rd.status)
      else (s, rd, rd.status)

def vfsReaddir (size : Nat) : State Φ × Int × List Dirent :=
  match s.fdFind p id with
  | none => (s, -EBADF, [])
  | some f =>
    if !has (s.file f).flags O_DIR then (s, -ENOTDIR, [])
    else
      match s.putDots f { size } with
      | (s, rd, false) => (s, rd.status, rd.dirent)
      | (s, rd, true) =>
        match s.readEntries f rd with
        | (s, rd, status) => (s, status, rd.dirent)

/-- The state after `vfs_init`, before the first process: only the static root, whose table is the first one. -/
def vfsInit (table : Nat → Ops Φ) (fsl : List (Name × Nat)) (store : Φ) (mem : Nat → Bool) (now : Nat) : State Φ where
  table := table
  fsl := fsl
  store := store
  dentry := fun _ => { Dentry.zero with
    inode := some { Inode.zero with flags := I_DIR, mode := 0o755 }, parent := root, mp := root }
  live := fun d => d == root
  fresh := 1
  mpl := []
  mpNumfd := fun _ => 0
  file := fun _ => File.zero
  files := 0
  proc := fun _ => ⟨false, root, [], 0⟩
  procs := 0
  mem := mem
  mems := 0
  now := now
  oob := false
  fault := false

def vfsChdir (path : Path) : State Φ × Int :=
  match s.vfsWalkPath p path true with
  | (s, .error e) => (s, e)
  | (s, .ok ndp) =>
    let odp := (s.proc p).cwd
    if !s.isDir ndp then (s, -ENOTDIR)
    else if odp = ndp then (s, 0)
    else (((s.modifyProc p fun q => { q with cwd := ndp }).dentryOpen ndp).dentryClose odp, 0)

/-- The start of a process (`process_create` with `vfs_proc_init`) in the working directory of its parent, or in the
    root. -/
def procStart (parent : Option Nat) : State Φ :=
  let cwd := match parent with
    | some p => (s.proc p).cwd
    | none => root
  let q := s.procs
  ({ s with procs := s.procs + 1 }.modifyProc q fun _ => ⟨true, cwd, [], 0⟩).dentryOpen cwd

/-- The loop of `process_exit` that closes the first descriptor as long as there is one. -/
def closeAll (p : Nat) : Nat → State Φ → State Φ
  | 0, s => s
  | n + 1, s =>
    match (s.proc p).fds with
    | [] => s
    | fd :: _ => closeAll p n (s.vfsClose p fd.1).1

def procExit : State Φ :=
  let s := closeAll p (s.proc p).fds.length s
  (s.modifyProc p fun q => { q with alive := false }).dentryClose (s.proc p).cwd

end State

end Novino.Vfs
