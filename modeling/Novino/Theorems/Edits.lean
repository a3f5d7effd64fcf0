import Novino.Theorems.Dcache
import Novino.Lib.Chains

/-! The edits that the operations of the VFS are made of. What holds along every history is proved edit by edit. -/

namespace Novino.Vfs
open Chains
open Ext2 (Name I_FILE I_DIR ENOENT)

variable {Φ : Type} (s : State Φ)

structure State.Valid (s : State Φ) (d : Nat) : Prop where
  live : s.live d = true
  positive : s.isPositive d = true

/-- A dentry that is used as a directory: it is one, or it was opened as one. -/
def State.Directory (d : Nat) : Prop :=
  s.isDir d = true ∨
    ∃ f < s.files, (s.file f).refs ≠ 0 ∧ has (s.file f).flags O_DIR = true ∧ (s.file f).dentry = d

structure State.ValidDir (s : State Φ) (d : Nat) : Prop extends s.Valid d where
  directory : s.Directory d
  ne_root : d ≠ root

structure State.Entry (s : State Φ) (d : Nat) : Prop where
  live : s.live d = true
  inner : (s.dentry d).mp ≠ d

def State.madeInode (parent flags mode : Nat) : Inode :=
  { Inode.zero with
    ops := (s.inode parent).ops, data := (s.inode parent).data, flags, uid := 1337, gid := 1337, mode
    atime := s.now, ctime := s.now, mtime := s.now }

inductive Maker (Φ : Type) : (Ops Φ → Option (Φ → Inode → Name → Inode → Φ × Int × Inode)) → Nat → Prop
  | create : Maker Φ Ops.create I_FILE
  | mkdir : Maker Φ Ops.mkdir I_DIR

inductive Dropper (Φ : Type) : (Ops Φ → Option (Φ → Inode → Name → Inode → Φ × Int)) → Bool → Prop
  | remove : Dropper Φ Ops.remove false
  | rmdir : Dropper Φ Ops.rmdir true

structure MakeCall (s : State Φ) (dp flags : Nat) (r : Φ × Int × Inode) : Prop extends s.Entry dp where
  negative : s.isPositive dp = false
  folder : s.ValidDir (s.dentry dp).parent
  call : ∃ op make mode, Maker Φ op flags ∧ op (s.ops (s.dentry dp).parent) = some make ∧
    make s.store (s.inode (s.dentry dp).parent) (s.dentry dp).name (s.madeInode (s.dentry dp).parent flags mode) = r

structure DropCall (s : State Φ) (dp : Nat) (r : Φ × Int) : Prop extends s.Entry dp where
  positive : s.isPositive dp = true
  unused : (s.dentry dp).numfd = 0
  call : ∃ op drop, Dropper Φ op (s.isDir dp) ∧ op (s.ops dp) = some drop ∧
    drop s.store (s.inode (s.dentry dp).parent) (s.dentry dp).name (s.inode dp) = r

structure RenameCall (s : State Φ) (src dst : Nat) (r : Φ × Int × Inode) : Prop where
  moved : s.Entry src
  replaced : s.Entry dst
  ne : src ≠ dst
  positive : s.isPositive src = true
  unused : (s.dentry dst).numfd = 0
  flags : s.isPositive dst = true → (s.inode dst).flags = (s.inode src).flags
  mount : (s.dentry src).mp = (s.dentry dst).mp
  above : ¬Below (fun d => (s.dentry d).parent) src (s.dentry dst).parent
  alone : (s.dentry dst).children = []
  short : (s.dentry dst).name.length < MAX_LFN
  folder : s.isPositive dst = false → s.ValidDir (s.dentry dst).parent
  call : ∃ rename, (s.ops src).rename = some rename ∧ rename s.store
    (s.inode (s.dentry src).parent, (s.dentry src).name, s.inode src)
    (s.inode (s.dentry dst).parent, (s.dentry dst).name, (s.dentry dst).inode) = r

/-- The stores after calls that change no name, failed ones included. -/
inductive Quiet (s : State Φ) : Φ → Prop
  | lookup {d : Nat} (h : s.ValidDir d) {name : Name} (hdot : Ordinary name) :
    Quiet s ((s.ops d).lookup s.store (s.inode d) name).1
  | readdir {d : Nat} (h : s.ValidDir d) (k n : Nat) : Quiet s (((s.ops d).readdir s.store (s.inode d) k).done n).1
  | openFile {d : Nat} (h : s.Valid d) {g} (hg : (s.ops d).openFile = some g) : Quiet s (g s.store (s.inode d)).1
  | closeFile {d : Nat} (h : s.Valid d) {g} (hg : (s.ops d).closeFile = some g) : Quiet s (g s.store (s.inode d)).1
  | read {d : Nat} (h : s.Valid d) {g} (hg : (s.ops d).read = some g) (seek size : Nat) :
    Quiet s (g s.store (s.inode d) seek size).1
  | seek {d : Nat} (h : s.Valid d) {g} (hg : (s.ops d).seek = some g) (seek : Nat) (offset : Int) (origin : Nat) :
    Quiet s (g s.store (s.inode d) seek offset origin).1
  | make {dp flags : Nat} {r} (h : MakeCall s dp flags r) (hst : r.2.1 < 0) : Quiet s r.1
  | drop {dp : Nat} {r} (h : DropCall s dp r) (hst : r.2 ≠ 0) : Quiet s r.1

/-- The stores and inodes after calls that may change the inode of a dentry and no name. -/
inductive Touched (s : State Φ) (d : Nat) : Φ → Inode → Prop
  | write {g} (hg : (s.ops d).write = some g) (seek : Nat) (buf : List Byte) :
    Touched s d (g s.store (s.inode d) seek buf).1 (g s.store (s.inode d) seek buf).2.2
  | truncate {g} (hg : (s.ops d).truncate = some g) :
    Touched s d (g s.store (s.inode d)).1 (g s.store (s.inode d)).2.2
  | rename {dst : Nat} {r} (h : RenameCall s d dst r) (hst : r.2.1 < 0) : Touched s d r.1 r.2.2

/-- Where the inode of a new dentry comes from: the answer to a lookup, or the entries of a directory. -/
inductive Origin (s : State Φ) (parent : Nat) (name : Name) : Option Inode → Prop
  | found {ip : Inode} (h : ((s.ops parent).lookup s.store (s.inode parent) name).2 = .ok ip) :
    Origin s parent name (some ip)
  | missing (h : ((s.ops parent).lookup s.store (s.inode parent) name).2 = .error (-ENOENT)) : Origin s parent name none
  | listed {ip : Inode} (k : Nat) (h : (name, ip) ∈ ((s.ops parent).readdir s.store (s.inode parent) k).entries)
    (hdot : Ordinary name) : Origin s parent name (some ip)

def State.opened (p dp flags seek n : Nat) : State Φ :=
  (({ s with mems := n, files := s.files + 1 }.modifyFile s.files fun _ => ⟨1, flags, seek, dp⟩).modifyProc p fun q =>
    { q with fds := (q.next, s.files) :: q.fds, next := q.next + 1 }).dentryOpen dp

def State.abandoned (p n : Nat) (x : File) : State Φ :=
  ({ s with mems := n, files := s.files + 1 }.modifyFile s.files fun _ => { x with refs := 0 }).modifyProc p fun q =>
    { q with next := q.next + 1 }

def State.cloned (f q n : Nat) : State Φ :=
  ({ s with mems := n }.modifyFile f fun x => { x with refs := x.refs + 1 }).modifyProc q fun x =>
    { x with fds := (x.next, f) :: x.fds, next := x.next + 1 }

inductive FileEdit (s : State Φ) : State Φ → Prop
  | move (f n : Nat) : FileEdit s (s.modifyFile f fun x => { x with seek := n })
  | opened {p dp flags : Nat} (hp : (s.proc p).alive = true) (hd : s.Valid dp)
    (hdir : has flags O_DIR = true → s.isDir dp = true) (seek n : Nat) : FileEdit s (s.opened p dp flags seek n)
  | abandoned (p n : Nat) (x : File) : FileEdit s (s.abandoned p n x)
  | dropped {p id f : Nat} (h : s.fdFind p id = some f) (hrefs : (s.file f).refs ≠ 1) :
    FileEdit s (s.fdDelete p id f).1
  | closed {p id f : Nat} (h : s.fdFind p id = some f) (hrefs : (s.file f).refs = 1) :
    FileEdit s ((s.fdDelete p id f).1.dentryClose (s.file f).dentry)
  | cloned {p id f q : Nat} (h : s.fdFind p id = some f) (hq : (s.proc q).alive = true) (n : Nat) :
    FileEdit s (s.cloned f q n)
  | chdir {p d : Nat} (hp : (s.proc p).alive = true) (hd : s.Valid d) (hne : (s.proc p).cwd ≠ d) :
    FileEdit s (((s.modifyProc p fun q => { q with cwd := d }).dentryOpen d).dentryClose (s.proc p).cwd)
  | started (parent : Option Nat) (h : ∀ p, parent = some p → (s.proc p).alive = true) : FileEdit s (s.procStart parent)
  | ended {p : Nat} (hp : (s.proc p).alive = true) :
    FileEdit s ((s.modifyProc p fun q => { q with alive := false }).dentryClose (s.proc p).cwd)

def State.mounted (target : Name) (fs data : Nat) (inode : Inode) : State Φ :=
  { s with
    dentry := Function.update s.dentry s.fresh
      { Dentry.zero with
        name := target, inode := some { inode with ops := fs, data }, parent := root, mp := s.fresh }
    live := Function.update s.live s.fresh true
    fresh := s.fresh + 1
    mpNumfd := Function.update s.mpNumfd s.fresh 0
    mpl := ⟨target, s.fresh, fs⟩ :: s.mpl }

def State.unmounted (mp : Mount) : State Φ :=
  let t := { s with mpl := s.mpl.erase mp }.dcachePurge mp.dentry
  { t with live := Function.update t.live mp.dentry false }

inductive Edit (s : State Φ) : State Φ → Prop
  | heap (n : Nat) : Edit s { s with mems := n, fault := true }
  | quiet {φ : Φ} (h : Quiet s φ) : Edit s { s with store := φ }
  | append {parent : Nat} {name : Name} {ip : Option Inode} {s' : State Φ} (h : Appended s parent name ip s')
    (hp : s.ValidDir parent) (hn : name.length < MAX_LFN) (hdot : Ordinary name)
    (hnew : ∀ c ∈ (s.dentry parent).children, (s.dentry c).name ≠ name) (ho : Origin s parent name ip) : Edit s s'
  | make {dp flags : Nat} {r : Φ × Int × Inode} {s' : State Φ} (h : Flipped s dp (some r.2.2) s')
    (hc : MakeCall s dp flags r) (hst : 0 ≤ r.2.1) (hφ : s'.store = r.1) : Edit s s'
  | drop {dp : Nat} {r : Φ × Int} {s' : State Φ} (h : Flipped s dp none s') (hc : DropCall s dp r) (hst : r.2 = 0)
    (hempty : ∀ c ∈ (s.dentry dp).children, s.isPositive c = false) (hφ : s'.store = r.1) : Edit s s'
  | rename {src dst : Nat} {r : Φ × Int × Inode} {s' : State Φ} (h : Renamed s src dst r.2.2 s')
    (hc : RenameCall s src dst r) (hst : 0 ≤ r.2.1) (hφ : s'.store = r.1) : Edit s s'
  | inode {d : Nat} {φ : Φ} {ip : Inode} (hd : s.Valid d) (h : Touched s d φ ip) :
    Edit s ({ s with store := φ }.modify d fun x => { x with inode := some ip })
  | mark {d : Nat} (hd : s.ValidDir d)
    (h : ∀ e ∈ ((s.ops d).readdir s.store (s.inode d) (s.dentry d).positive).entries, e.1 = dot ∨ e.1 = dotdot) :
    Edit s (s.modify d fun x => { x with cached := true })
  | files {s' : State Φ} (h : FileEdit s s') : Edit s s'

def Edits : State Φ → State Φ → Prop := Relation.ReflTransGen Edit

/-- The edits of the mounts; a file system may do anything when it is mounted or unmounted. -/
inductive MountEdit (s : State Φ) : State Φ → Prop
  | call (φ : Φ) : MountEdit s { s with store := φ }
  | heap (n : Nat) (b : Bool) : MountEdit s { s with mems := n, fault := b }
  | mount {target : Name} (h : s.findMp target = none) (fs data : Nat) (inode : Inode) :
    MountEdit s (s.mounted target fs data inode)
  | umount {mp : Mount} (h : mp ∈ s.mpl) (hn : s.mpNumfd mp.dentry = 0) : MountEdit s (s.unmounted mp)

end Novino.Vfs
