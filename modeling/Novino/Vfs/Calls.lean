import Novino.Vfs.Files

/-! The VFS as a system: the calls that processes make one after the other. -/

namespace Novino.Vfs
open Ext2 (Name)

/-- The calls of the VFS, each by a process `p`. -/
inductive Call
  | lookup (p : Nat) (path : Path) (mustexist : Bool)
  | create (p : Nat) (path : Path) (mode : Nat)
  | mkdir (p : Nat) (path : Path) (mode : Nat)
  | remove (p : Nat) (path : Path)
  | rmdir (p : Nat) (path : Path)
  | rename (p : Nat) (old new : Path)
  | openFile (p : Nat) (path : Path) (flags : Nat)
  | closeFile (p id : Nat)
  | read (p id size : Nat)
  | write (p id : Nat) (buf : List Byte)
  | seek (p id : Nat) (offset : Int) (origin : Nat)
  | readdir (p id size : Nat)
  | clone (p id target : Nat)
  | chdir (p : Nat) (path : Path)
  | start (parent : Option Nat)
  | exit (p : Nat)
  | mount (p : Nat) (source : Option Path) (fstype target : Name)
  | umount (p : Nat) (target : Name)
  deriving DecidableEq, Repr

namespace State
variable {Φ : Type} (s : State Φ)

def running : Call → Bool
  | .lookup p _ _ | .create p _ _ | .mkdir p _ _ | .remove p _ | .rmdir p _ | .rename p _ _ | .openFile p _ _
  | .closeFile p _ | .read p _ _ | .write p _ _ | .seek p _ _ _ | .readdir p _ _ | .chdir p _ | .exit p
  | .mount p _ _ _ | .umount p _ => (s.proc p).alive
  | .clone p _ target => (s.proc p).alive && (s.proc target).alive
  | .start none => true
  | .start (some p) => (s.proc p).alive

def call : Call → State Φ
  | .lookup p path mustexist => (s.vfsWalkPath p path mustexist).1
  | .create p path mode => (s.vfsCreate p path mode).1
  | .mkdir p path mode => (s.vfsMkdir p path mode).1
  | .remove p path => (s.vfsRemove p path).1
  | .rmdir p path => (s.vfsRmdir p path).1
  | .rename p old new => (s.vfsRename p old new).1
  | .openFile p path flags => (s.vfsOpen p path flags).1
  | .closeFile p id => (s.vfsClose p id).1
  | .read p id size => (s.vfsRead p id size).1
  | .write p id buf => (s.vfsWrite p id buf).1
  | .seek p id offset origin => (s.vfsSeek p id offset origin).1
  | .readdir p id size => (s.vfsReaddir p id size).1
  | .clone p id target =>
    match s.fdFind p id with
    | none => s
    | some f => s.fdClone f target
  | .chdir p path => (s.vfsChdir p path).1
  | .start parent => s.procStart parent
  | .exit p => s.procExit p
  | .mount p source fstype target => (s.vfsMount p source fstype target).1
  | .umount _ target => (s.vfsUmount target).1

def step (c : Call) : State Φ := if s.running c then s.call c else s

end State

end Novino.Vfs
