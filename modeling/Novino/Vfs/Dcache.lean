import Novino.Vfs.Types

/-! The cache of directory entries (`kernel/vfs/dcache.c`). -/

namespace Novino.Vfs
open Ext2 (Name)

def dentryHash (name : Name) : Nat := name.foldl (fun h b => (37 * h + b.toNat) % 2 ^ 64) 0

/-- What the `n` bytes from offset `o` of a dentry hold after `strcpy` of `name` to its start. -/
def spill (name : Name) (o old : Nat) : Nat → Nat
  | 0 => 0
  | n + 1 =>
    (if o < name.length then (name.getD o 0).toNat else if o = name.length then 0 else old % 256) +
      256 * spill name (o + 1) (old / 256) n

variable (d : Dentry)

/-- `strcpy(item->name, name)`: a name that does not fit into its array runs on over the flag, the counts and the
    number of references, which lie behind it. A name of more than 288 bytes also runs over the pointers of the dentry,
    which keep their values here; `oob` says that the array was left. -/
def Dentry.setName (name : Name) : Dentry :=
  if name.length < MAX_LFN then { d with name }
  else { d with
    name
    cached := name.length != MAX_LFN
    positive := spill name 272 d.positive 8
    negative := spill name 280 d.negative 8
    numfd := spill name 296 d.numfd 8 }

def Dentry.count (positive : Bool) : Dentry :=
  if positive then { d with positive := d.positive + 1 } else { d with negative := d.negative + 1 }

def Dentry.uncount (positive : Bool) : Dentry :=
  if positive then { d with positive := dec d.positive } else { d with negative := dec d.negative }

namespace State
variable {Φ : Type} (s : State Φ) (item parent : Nat)

def dentryUnlink : State Φ :=
  s.modify (s.dentry item).parent fun d =>
    { d.uncount (s.isPositive item) with children := d.children.erase item }

def dentryLink (item : Nat) : State Φ :=
  (s.modify item fun d => { d with parent }).modify parent fun d =>
    { d.count (s.isPositive item) with children := item :: d.children }

def dcacheLookup (name : Name) : Option Nat :=
  (s.dentry parent).children.find? fun item =>
    dentryHash (s.dentry item).name == dentryHash name && (s.dentry item).name == name

def dcacheDelete : State Φ :=
  { s.dentryUnlink item with live := Function.update s.live item false }

def dcacheMove (item : Nat) (name : Name) : State Φ :=
  let s := s.dentryUnlink item
  let s := { s.modify item (·.setName name) with oob := s.oob || decide (MAX_LFN ≤ name.length) }
  s.dentryLink parent item

def dcacheAppend (name : Name) (inode : Option Inode) : State Φ × Option Nat :=
  match s.alloc with
  | (s, false) => (s, none)
  | (s, true) =>
    let item := s.fresh
    let d := { Dentry.zero.setName name with
      mp := (s.dentry parent).mp
      inode := inode.map fun ip => { ip with ops := (s.inode parent).ops, data := (s.inode parent).data } }
    let s := { s with
      dentry := Function.update s.dentry item d
      live := Function.update s.live item true
      fresh := s.fresh + 1
      oob := s.oob || decide (MAX_LFN ≤ name.length) }
    (s.dentryLink parent item, some item)

def dcacheMarkPositive : State Φ :=
  if s.isPositive item then s
  else
    let parent := (s.dentry item).parent
    let s := s.modify parent fun d => { d with negative := dec d.negative, positive := d.positive + 1 }
    s.modify item fun d =>
      { d with inode := some { Inode.zero with ops := (s.inode parent).ops, data := (s.inode parent).data } }

def dcacheMarkNegative : State Φ :=
  if s.isPositive item then
    let s := s.modify (s.dentry item).parent fun d =>
      { d with negative := d.negative + 1, positive := dec d.positive }
    s.modify item fun d => { d with inode := none }
  else s

def purged (dentry : Nat → Dentry) : Nat → Nat → List Nat
  | 0, _ => []
  | n + 1, d => ((dentry d).children.flatMap (purged dentry n)) ++ (dentry d).children

def dcachePurge (d : Nat) : State Φ :=
  { s with live := fun x => s.live x && !(purged s.dentry s.fresh d).contains x }

end State

end Novino.Vfs
