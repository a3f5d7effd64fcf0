import Novino.Ext2.Dirent

/-! The data of the virtual file system (`kernel/vfs/types.h`, `kernel/vfs/vfs.c`, `kernel/vfs/fd.c`). Pointers to
    dentries, files and processes are numbers. A freed dentry keeps its contents and is not `live`; its number is not
    used again. A mount is identified by the number of its root dentry, and the root of the tree is its own mount. The
    backing file systems are tables of functions on a store `Φ`. Counts of objects in memory are raised without a bound
    and lowered modulo `2 ^ 64`. -/

namespace Novino.Vfs
open Ext2 (Name VInode I_DIR)

def EBUSY : Int := 3
def ENOTDIR : Int := 6
def EISDIR : Int := 7
def ENODEV : Int := 9
def ENOFS : Int := 10
def EXDEV : Int := 13
def EBADF : Int := 18
def ENAMETOOLONG : Int := 20
def EFAIL : Int := 22
def EINVAL : Int := 24
def ENOTSUP : Int := 27
def EEXIST : Int := 30

def I_BLOCK : Nat := 0x04

def O_READ : Nat := 0x01
def O_WRITE : Nat := 0x02
def O_TRUNC : Nat := 0x04
def O_APPEND : Nat := 0x08
def O_DIR : Nat := 0x10
def O_CREATE : Nat := 0x20

def MAX_SFN : Nat := 16
def MAX_LFN : Nat := 256

def dot : Name := [0x2E]
def dotdot : Name := [0x2E, 0x2E]

/-- A name that a file system is asked for: the VFS resolves `.` and `..` itself. -/
def Ordinary (name : Name) : Prop := name ≠ dot ∧ name ≠ dotdot

instance (name : Name) : Decidable (Ordinary name) := inferInstanceAs (Decidable (_ ∧ _))

def dec (n : Nat) : Nat := if n = 0 then 2 ^ 64 - 1 else n - 1

@[simp] theorem dec_succ (n : Nat) : dec (n + 1) = n := if_neg (Nat.succ_ne_zero n)

theorem dec_add_one {n : Nat} (h : n ≠ 0) : dec n + 1 = n := by
  rw [dec, if_neg h]
  omega

def has (flags bit : Nat) : Bool := flags &&& bit != 0

/-! ### Inodes and file systems -/

/-- An inode with its table of operations, the data of its file system and the object it stands for. -/
structure Inode extends VInode where
  ops : Nat
  data : Nat
  obj : Nat
  deriving DecidableEq, Repr

def Inode.zero : Inode := ⟨⟨0, 0, 0, 0, 0, 0, 0, 0, 0, 0, 0, 0⟩, 0, 0, 0⟩

/-- What `readdir` does from a position on: the entries that it puts one after the other until one is refused, and how
it ends when that many were taken. -/
structure Listing (Φ : Type) where
  entries : List (Name × Inode)
  done : Nat → Φ × Int

/-- The operations of a file system (`vfs_ops_t`); those that may be missing are optional. A dentry is passed as
    the inode of its directory, its name and its inode. -/
structure Ops (Φ : Type) where
  lookup : Φ → Inode → Name → Φ × Except Int Inode
  readdir : Φ → Inode → Nat → Listing Φ
  openFile : Option (Φ → Inode → Φ × Int)
  closeFile : Option (Φ → Inode → Φ × Int)
  read : Option (Φ → Inode → (seek size : Nat) → Φ × Int × List Byte)
  write : Option (Φ → Inode → (seek : Nat) → List Byte → Φ × Int × Inode)
  seek : Option (Φ → Inode → (seek : Nat) → (offset : Int) → (origin : Nat) → Φ × Int × Nat)
  truncate : Option (Φ → Inode → Φ × Int × Inode)
  create : Option (Φ → Inode → Name → Inode → Φ × Int × Inode)
  mkdir : Option (Φ → Inode → Name → Inode → Φ × Int × Inode)
  remove : Option (Φ → Inode → Name → Inode → Φ × Int)
  rmdir : Option (Φ → Inode → Name → Inode → Φ × Int)
  rename : Option (Φ → (Inode × Name × Inode) → (Inode × Name × Option Inode) → Φ × Int × Inode)
  mount : Φ → Option Nat → Φ × Option (Nat × Inode)
  umount : Φ → Nat → Φ × Int

/-- A cached directory entry (`dentry_t`), negative without an inode. The hash is that of the name wherever it is
compared. -/
structure Dentry where
  name : Name
  cached : Bool
  positive : Nat
  negative : Nat
  inode : Option Inode
  numfd : Nat
  mp : Nat
  parent : Nat
  children : List Nat
  deriving DecidableEq, Repr

def Dentry.zero : Dentry := ⟨[], false, 0, 0, none, 0, 0, 0, []⟩

def Dentry.isPositive (d : Dentry) : Bool := d.inode.isSome

/-- A mount (`vfs_mp_t`) with the number of its root dentry and the table of its file system. -/
structure Mount where
  name : Name
  dentry : Nat
  ops : Nat
  deriving DecidableEq, Repr

/-- An open file (`file_t`); its inode is the one of its dentry. It is freed without references. -/
structure File where
  refs : Nat
  flags : Nat
  seek : Nat
  dentry : Nat
  deriving DecidableEq, Repr

def File.zero : File := ⟨0, 0, 0, 0⟩

/-- The part of a process that the VFS uses: its working directory and its descriptors with their files. -/
structure Proc where
  alive : Bool
  cwd : Nat
  fds : List (Nat × Nat)
  next : Nat
  deriving DecidableEq, Repr

/-- The state of the VFS over a store. `fresh`, `files` and `procs` are the next free numbers. `mem n` tells whether the
`n`-th allocation succeeds. `oob` records that a name was copied past its array, `fault` that a null pointer was
followed. -/
structure State (Φ : Type) where
  table : Nat → Ops Φ
  fsl : List (Name × Nat)
  store : Φ
  dentry : Nat → Dentry
  live : Nat → Bool
  fresh : Nat
  mpl : List Mount
  mpNumfd : Nat → Nat
  file : Nat → File
  files : Nat
  proc : Nat → Proc
  procs : Nat
  mem : Nat → Bool
  mems : Nat
  now : Nat
  oob : Bool
  fault : Bool

def root : Nat := 0

namespace State
variable {Φ : Type} (s : State Φ)

/-- The inode behind the pointer of a dentry, which a caller follows when the dentry is positive. -/
def inode (d : Nat) : Inode := (s.dentry d).inode.getD Inode.zero

def ops (d : Nat) : Ops Φ := s.table (s.inode d).ops

def isPositive (d : Nat) : Bool := (s.dentry d).isPositive
def isDir (d : Nat) : Bool := has (s.inode d).flags I_DIR

def modify (d : Nat) (f : Dentry → Dentry) : State Φ :=
  { s with dentry := Function.update s.dentry d (f (s.dentry d)) }

theorem modify_dentry (d e : Nat) (f : Dentry → Dentry) :
    (s.modify d f).dentry e = if e = d then f (s.dentry e) else s.dentry e := by
  show Function.update _ _ _ e = _
  rw [Function.update_apply]
  split
  · rename_i h
    rw [h]
  · rfl

def modifyFile (f : Nat) (g : File → File) : State Φ :=
  { s with file := Function.update s.file f (g (s.file f)) }

def modifyProc (p : Nat) (g : Proc → Proc) : State Φ :=
  { s with proc := Function.update s.proc p (g (s.proc p)) }

/-- `kzalloc` clears the null pointer that it gets without memory, before its caller can return `-ENOMEM`. -/
def alloc : State Φ × Bool :=
  match s.mem s.mems with
  | true => ({ s with mems := s.mems + 1 }, true)
  | false => ({ s with mems := s.mems + 1, fault := true }, false)

end State

end Novino.Vfs
