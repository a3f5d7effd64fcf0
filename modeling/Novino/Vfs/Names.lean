import Novino.Vfs.Walk

/-! The operations of the VFS that change names and mounts (`vfs_create`, `vfs_mkdir`, `vfs_remove`, `vfs_rmdir`,
    `vfs_rename`, `vfs_mount`, `vfs_umount`). -/

namespace Novino.Vfs
open Ext2 (Name I_FILE I_DIR ENOMEM)

namespace State
variable {Φ : Type} (s : State Φ) (p : Nat)

def newInode (d flags mode : Nat) : Inode :=
  { s.inode d with flags, uid := 1337, gid := 1337, mode, atime := s.now, ctime := s.now, mtime := s.now }

/-- `vfs_create` and `vfs_mkdir`, with the operation `op` of the file system and the flags of the new inode. -/
def vfsMake (op : Ops Φ → Option (Φ → Inode → Name → Inode → Φ × Int × Inode)) (flags : Nat) (p : Nat) (path : Path)
    (mode : Nat) : State Φ × Int :=
  match s.vfsWalkPath p path false with
  | (s, .error e) => (s, e)
  | (s, .ok dp) =>
    if s.isPositive dp then (s, -EEXIST)
    else
      let parent := (s.dentry dp).parent
      match op (s.ops parent) with
      | none => (s, -ENOTSUP)
      | some make =>
        let s := s.dcacheMarkPositive dp
        match make s.store (s.inode parent) (s.dentry dp).name (s.newInode dp flags mode) with
        | (store, status, ip) =>
          let s := { s with store }.modify dp fun d => { d with inode := some ip }
          if status < 0 then (s.dcacheMarkNegative dp, status) else (s, status)

def vfsCreate : Nat → Path → Nat → State Φ × Int := s.vfsMake Ops.create I_FILE

def vfsMkdir : Nat → Path → Nat → State Φ × Int := s.vfsMake Ops.mkdir I_DIR

/-- `vfs_remove` and `vfs_rmdir`: the dentry has to be a directory or not as `dir` says, or the status is `wrong`. -/
def vfsDrop (op : Ops Φ → Option (Φ → Inode → Name → Inode → Φ × Int)) (dir : Bool) (wrong : Int) (p : Nat)
    (path : Path) : State Φ × Int :=
  match s.vfsWalkPath p path true with
  | (s, .error e) => (s, e)
  | (s, .ok dp) =>
    if s.isDir dp ≠ dir then (s, wrong)
    else if (s.dentry dp).numfd ≠ 0 then (s, -EBUSY)
    else
      match op (s.ops dp) with
      | none => (s, -ENOTSUP)
      | some drop =>
        match drop s.store (s.inode (s.dentry dp).parent) (s.dentry dp).name (s.inode dp) with
        | (store, status) =>
          let s := { s with store }
          if status = 0 then (s.dcacheMarkNegative dp, 0) else (s, status)

def vfsRemove : Nat → Path → State Φ × Int := s.vfsDrop Ops.remove false (-EISDIR)

def vfsRmdir : Nat → Path → State Φ × Int := s.vfsDrop Ops.rmdir true (-ENOTDIR)

def renameEnds (old new : Path) : State Φ × Except Int (Nat × Nat) :=
  match s.vfsWalkPath p old true with
  | (s, .error e) => (s, .error e)
  | (s, .ok src) =>
    match s.vfsWalkPath p new false with
    | (s, .error e) => (s, .error e)
    | (s, .ok dst) => (s, .ok (src, dst))

/-- The loop of `vfs_rename` that climbs from `d` to the root and looks for `src`; `none` when the root is not met
    within the given number of steps. -/
def climbs (src : Nat) : Nat → Nat → Option Bool
  | 0, _ => none
  | n + 1, d => if d = root then some false else if d = src then some true else climbs src n (s.dentry d).parent

/-- The checks of `vfs_rename`: a status, or none to go on. The loop ends within `fresh + 1` steps unless the tree has a
cycle. -/
def renameCheck (src dst : Nat) : Option Int :=
  if (s.dentry dst).numfd ≠ 0 then some (-EBUSY)
  else if src = dst then some 0
  else if s.isPositive dst ∧ (s.inode dst).flags ≠ (s.inode src).flags then some (-EINVAL)
  else if (s.dentry src).mp ≠ (s.dentry dst).mp then some (-EXDEV)
  else if s.isDir src ∧ s.climbs src (s.fresh + 1) (s.dentry dst).parent ≠ some false then some (-EINVAL)
  else none

def vfsRename (old new : Path) : State Φ × Int :=
  match s.renameEnds p old new with
  | (s, .error e) => (s, e)
  | (s, .ok (src, dst)) =>
    match s.renameCheck src dst with
    | some status => (s, status)
    | none =>
      match (s.ops src).rename with
      | none => (s, -ENOTSUP)
      | some rename =>
        let from_ := (s.inode (s.dentry src).parent, (s.dentry src).name, s.inode src)
        let to_ := (s.inode (s.dentry dst).parent, (s.dentry dst).name, (s.dentry dst).inode)
        match rename s.store from_ to_ with
        | (store, status, ip) =>
          let s := { s with store }.modify src fun d => { d with inode := some ip }
          if status < 0 then (s, status)
          else ((s.dcacheMove (s.dentry dst).parent src (s.dentry dst).name).dcacheDelete dst, 0)

/-- The device that `vfs_mount` mounts: the object of a block device, or none without a source. -/
def mountSource : Option Path → State Φ × Except Int (Option Nat)
  | none => (s, .ok none)
  | some path =>
    match s.vfsWalkPath p path true with
    | (s, .error e) => (s, .error e)
    | (s, .ok dp) =>
      if has (s.inode dp).flags I_BLOCK then (s, .ok (some (s.inode dp).obj)) else (s, .error (-ENODEV))

def vfsMount (source : Option Path) (fstype target : Name) : State Φ × Int :=
  if validateName target MAX_SFN ≠ 0 then (s, validateName target MAX_SFN)
  else
    match s.findFs fstype with
    | none => (s, -ENOFS)
    | some fs =>
      if (s.findMp target).isSome then (s, -EEXIST)
      else
        match s.mountSource p source with
        | (s, .error e) => (s, e)
        | (s, .ok dev) =>
          match (s.table fs).mount s.store dev with
          | (store, none) => ({ s with store }, -EFAIL)
          | (store, some (data, inode)) =>
            match { s with store }.alloc with
            | (s, false) => (s, -ENOMEM)
            | (s, true) =>
              let dp := s.fresh
              let d := { Dentry.zero with
                name := target, inode := some { inode with ops := fs, data }, parent := root, mp := dp }
              ({ s with
                dentry := Function.update s.dentry dp d
                live := Function.update s.live dp true
                fresh := s.fresh + 1
                mpNumfd := Function.update s.mpNumfd dp 0
                mpl := ⟨target, dp, fs⟩ :: s.mpl }, 0)

def vfsUmount (target : Name) : State Φ × Int :=
  match s.findMp target with
  | none => (s, -EINVAL)
  | some mp =>
    if s.mpNumfd mp.dentry ≠ 0 then (s, -EBUSY)
    else
      match (s.table mp.ops).umount s.store (s.inode mp.dentry).data with
      | (store, status) =>
        let s := { s with store }
        if status < 0 then (s, status)
        else
          let s := { s with mpl := s.mpl.erase mp }.dcachePurge mp.dentry
          ({ s with live := Function.update s.live mp.dentry false }, 0)

end State

end Novino.Vfs
