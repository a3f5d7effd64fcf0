import Novino.Vfs.Dcache

/-! Walking a path (`vfs_walk_path`).

    A path is given by its components after `vfs_clean_path`, and by whether it starts at the root or at the working
    directory of the process. -/

namespace Novino.Vfs
open Ext2 (Name I_DIR ENOENT ENOMEM)

/-- A path that was taken apart at its slashes. -/
structure Path where
  absolute : Bool
  names : List Name
  deriving DecidableEq, Repr

namespace State
variable {Φ : Type} (s : State Φ) (name : Name)

def findMp : Option Mount := s.mpl.find? (·.name == name)

def findFs : Option Nat := (s.fsl.find? (·.1 == name)).map (·.2)

def validateName (maxlen : Nat) : Int :=
  if maxlen ≤ name.length then -ENAMETOOLONG
  else if name = dot ∨ name = dotdot ∨ 0x2F ∈ name then -EINVAL
  else 0

/-- The child of a directory: from the cache, or through `lookup` of the file system, whose answer is put into the
    cache. -/
def walkChild (parent : Nat) (name : Name) : State Φ × Except Int Nat :=
  match s.dcacheLookup parent name with
  | some child => (s, .ok child)
  | none =>
    match (s.ops parent).lookup s.store (s.inode parent) name with
    | (store, .ok ip) =>
      match { s with store }.dcacheAppend parent name (some ip) with
      | (s, some child) => (s, .ok child)
      | (s, none) => (s, .error (-ENOMEM))
    | (store, .error e) =>
      if e = -ENOENT then
        match { s with store }.dcacheAppend parent name none with
        | (s, some child) => (s, .ok child)
        | (s, none) => (s, .error (-ENOMEM))
      else ({ s with store }, .error e)

/-- The loop of `vfs_walk_path` over the components. It ends at a negative dentry, which is an answer when the path
    ends there and need not exist. -/
def walkLoop (mustexist : Bool) (s : State Φ) (parent : Nat) : List Name → State Φ × Except Int Nat
  | [] => (s, .ok parent)
  | name :: names =>
    if s.isDir parent = false then (s, .error (-ENOTDIR))
    else if name = dotdot then walkLoop mustexist s (s.dentry parent).parent names
    else if parent = root then
      match s.findMp name with
      | none => (s, .error (-ENOENT))
      | some mp => walkLoop mustexist s mp.dentry names
    else
      match s.walkChild parent name with
      | (s, .error e) => (s, .error e)
      | (s, .ok child) =>
        if s.isPositive child then walkLoop mustexist s child names
        else if names = [] ∧ mustexist = false then (s, .ok child)
        else (s, .error (-ENOENT))

def pathRoot (p : Nat) (path : Path) : Nat := if path.absolute then root else (s.proc p).cwd

def vfsWalkPath (p : Nat) (path : Path) (mustexist : Bool) : State Φ × Except Int Nat :=
  walkLoop mustexist s (s.pathRoot p path) path.names

def dentryOpen (d : Nat) : State Φ :=
  let mp := (s.dentry d).mp
  { s.modify d fun x => { x with numfd := x.numfd + 1 } with
    mpNumfd := Function.update s.mpNumfd mp (s.mpNumfd mp + 1) }

def dentryClose (d : Nat) : State Φ :=
  let mp := (s.dentry d).mp
  { s.modify d fun x => { x with numfd := dec x.numfd } with
    mpNumfd := Function.update s.mpNumfd mp (dec (s.mpNumfd mp)) }

end State

end Novino.Vfs
