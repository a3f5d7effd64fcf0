import Novino.Vfs.Types
import Novino.Lib.Namespaces

/-! What the VFS expects of a file system: its store shows a namespace, and every operation that succeeds changes the
    namespace as its name says and every other one leaves it alone. -/

namespace Novino.Vfs
open Ext2 (Name I_DIR ENOENT)

structure Node where
  ops : Nat
  data : Nat
  ino : Nat
  obj : Nat
  deriving DecidableEq, Repr

variable (ip : Inode)

def Inode.node : Node := ⟨ip.ops, ip.data, ip.ino, ip.obj⟩

def Inode.isDir : Bool := has ip.flags I_DIR

/-- The inode of an entry as the dentry cache keeps it, with the operations and the data of its directory. -/
def Inode.within (dir : Inode) : Inode := { ip with ops := dir.ops, data := dir.data }

/-- An inode of the same object, with perhaps another size or other times. -/
def Inode.Alike (ip' : Inode) : Prop := ip'.node = ip.node ∧ ip'.isDir = ip.isDir

/-- The namespace that a store shows, none when it is damaged. -/
abbrev View (Φ : Type) := Φ → Option (Namespace Node Name)

section Contract
variable {Φ : Type} (V : View Φ)

/-- The inode that a file system gives for a name is that of the entry. -/
structure Shown (T : Namespace Node Name) (dir : Inode) (name : Name) (ip : Inode) : Prop where
  entry : T.entry dir.node name = some (ip.within dir).node
  kind : ip.isDir = true ↔ T.isDir (ip.within dir).node

/-- A call on directory `dir` of a file system with table `o`, in a store that shows `T`. -/
structure CallIn (V : View Φ) (o : Nat) (φ : Φ) (T : Namespace Node Name) (dir : Inode) : Prop where
  view : V φ = some T
  table : dir.ops = o
  dir : T.isDir dir.node

structure CallOn (V : View Φ) (o : Nat) (φ : Φ) (T : Namespace Node Name) (ip : Inode) : Prop where
  view : V φ = some T
  table : ip.ops = o
  known : T.Known ip.node
  kind : ip.isDir = true ↔ T.isDir ip.node

/-- The list of entries behind `readdir`: from position `k` on the entries after the first `k` are put, with or
    without `.` and `..`. -/
structure Listed (T : Namespace Node Name) (dir : Inode) (entries : Nat → List (Name × Inode))
    (E : List (Name × Inode)) : Prop where
  nodup : (E.map (·.1)).Nodup
  drop : ∀ k, (entries k).filter (fun e => Ordinary e.1) = E.drop k
  shown : ∀ name ip, (name, ip) ∈ E → Shown T dir name ip
  all : ∀ name y, T.entry dir.node name = some y → name ∈ E.map (·.1)

structure MakeResult (V : View Φ) (T : Namespace Node Name) (d : Inode) (name : Name) (dir : Bool)
    (r : Φ × Int × Inode) :
    Prop where
  failed : r.2.1 < 0 → V r.1 = some T
  kind : 0 ≤ r.2.1 → r.2.2.isDir = dir
  volume : 0 ≤ r.2.1 → r.2.2.ops = d.ops ∧ r.2.2.data = d.data
  put : 0 ≤ r.2.1 → ∃ (hx : T.isDir d.node) (hy : T.Fresh r.2.2.node), V r.1 = some (T.put name dir hx hy)

def Makes (o : Nat) (dir : Bool) (make : Φ → Inode → Name → Inode → Φ × Int × Inode) : Prop :=
  ∀ φ T d name ip, CallIn V o φ T d → Ordinary name → T.entry d.node name = none → ip.ops = d.ops →
    ip.data = d.data → ip.isDir = dir → MakeResult V T d name dir (make φ d name ip)

structure DropResult (V : View Φ) (T : Namespace Node Name) (d : Inode) (name : Name) (ip : Inode) (r : Φ × Int) :
    Prop where
  failed : r.2 ≠ 0 → V r.1 = some T
  drop : r.2 = 0 → ∃ (h : T.entry d.node name = some ip.node) (he : T.Empty ip.node), V r.1 = some (T.drop h he)

def Drops (o : Nat) (dir : Bool) (drop : Φ → Inode → Name → Inode → Φ × Int) : Prop :=
  ∀ φ T d name ip, CallIn V o φ T d → T.entry d.node name = some ip.node → ip.isDir = dir →
    (ip.isDir = true ↔ T.isDir ip.node) → DropResult V T d name ip (drop φ d name ip)

structure MoveResult (V : View Φ) (T : Namespace Node Name) (d : Inode) (name : Name) (ip d' : Inode) (name' : Name)
    (r : Φ × Int × Inode) : Prop where
  alike : ip.Alike r.2.2
  failed : r.2.1 < 0 → V r.1 = some T
  move : 0 ≤ r.2.1 → ∃ (h : T.entry d.node name = some ip.node) (hx : T.isDir d'.node)
    (ho : ∀ w, T.entry d'.node name' = some w → T.Empty w), V r.1 = some (T.move h hx ho)

/-- The contract of `rename`, for an object that is not above its new place. -/
def Renames (o : Nat)
    (rename : Φ → (Inode × Name × Inode) → (Inode × Name × Option Inode) → Φ × Int × Inode) : Prop :=
  ∀ φ T d name ip d' name' jp, CallIn V o φ T d → CallIn V o φ T d' → d'.data = d.data →
    T.entry d.node name = some ip.node → (ip.isDir = true ↔ T.isDir ip.node) →
    T.entry d'.node name' = jp.map Inode.node → (∀ j, jp = some j → j.flags = ip.flags) → Ordinary name' →
    (d.node, name) ≠ (d'.node, name') → ¬T.Reach ip.node d'.node →
    MoveResult V T d name ip d' name' (rename φ (d, name, ip) (d', name', jp))

/-- The contract of a file system: its operations show and change the namespace that the store stands for. -/
structure Obeys (V : View Φ) (o : Nat) (ops : Ops Φ) : Prop where
  lookup : ∀ {φ T d name}, CallIn V o φ T d → Ordinary name → V (ops.lookup φ d name).1 = some T ∧
    (∀ ip, (ops.lookup φ d name).2 = .ok ip → Shown T d name ip) ∧
    ((ops.lookup φ d name).2 = .error (-ENOENT) → T.entry d.node name = none)
  readdir : ∀ {φ T d}, CallIn V o φ T d → (∀ k n, V ((ops.readdir φ d k).done n).1 = some T) ∧
    ∃ E, Listed T d (fun k => (ops.readdir φ d k).entries) E
  openFile : ∀ {φ T ip g}, ops.openFile = some g → CallOn V o φ T ip → V (g φ ip).1 = some T
  closeFile : ∀ {φ T ip g}, ops.closeFile = some g → CallOn V o φ T ip → V (g φ ip).1 = some T
  read : ∀ {φ T ip g} (seek size : Nat), ops.read = some g → CallOn V o φ T ip → V (g φ ip seek size).1 = some T
  write : ∀ {φ T ip g} (seek : Nat) (buf : List Byte), ops.write = some g → CallOn V o φ T ip →
    V (g φ ip seek buf).1 = some T ∧ ip.Alike (g φ ip seek buf).2.2
  seek : ∀ {φ T ip g} (seek : Nat) (offset : Int) (origin : Nat), ops.seek = some g → CallOn V o φ T ip →
    V (g φ ip seek offset origin).1 = some T
  truncate : ∀ {φ T ip g}, ops.truncate = some g → CallOn V o φ T ip → V (g φ ip).1 = some T ∧ ip.Alike (g φ ip).2.2
  create : ∀ {g}, ops.create = some g → Makes V o false g
  mkdir : ∀ {g}, ops.mkdir = some g → Makes V o true g
  remove : ∀ {g}, ops.remove = some g → Drops V o false g
  rmdir : ∀ {g}, ops.rmdir = some g → Drops V o true g
  rename : ∀ {g}, ops.rename = some g → Renames V o g

/-- A table without operations on files, as the root of the tree has it. -/
structure Ops.Bare (ops : Ops Φ) : Prop where
  openFile : ops.openFile = none
  closeFile : ops.closeFile = none
  read : ops.read = none
  write : ops.write = none
  seek : ops.seek = none
  truncate : ops.truncate = none

end Contract

end Novino.Vfs
