import Novino.Vfs.Files
import Novino.Ext2.Ops

/-! The table of operations that `ext2_init` registers. The store is a volume as `ext2fs_mount` has set it up. -/

namespace Novino.Vfs
open Ext2 (Name VInode)

/-- An inode as a file system fills it in, before the dentry cache adds what belongs to the mount. -/
def Inode.ofVInode (ip : VInode) : Inode := ⟨ip, 0, 0, 0⟩

/-- The part of `ext2fs_mount` after the superblock was read: the root inode. -/
def ext2fsMount (s : Ext2.State) : Ext2.State × Option (Nat × Inode) :=
  match Ext2.inodeRead s 2 false with
  | (s, none) => (s, none)
  | (s, some inode) => (s, some (1, .ofVInode (Ext2.inodeGetattr s Inode.zero.toVInode inode 2)))

def ext2Ops : Ops Ext2.State where
  lookup s dir name :=
    match Ext2.fsLookup s dir.toVInode name with
    | (s, _, some ip) => (s, .ok (.ofVInode ip))
    | (s, status, none) => (s, .error status)
  readdir s dir seek := {
    entries := (Ext2.fsReaddir s dir.ino seek (fun l name ip => (l ++ [(name, Inode.ofVInode ip)], false)) []).2.2
    done := fun n =>
      match Ext2.fsReaddir s dir.ino seek (fun k _ _ => if k < n then (k + 1, false) else (k, true)) 0 with
      | (s, status, _) => (s, status) }
  openFile := none
  closeFile := none
  read := some fun s ip seek size => Ext2.fsRead s ⟨seek, ip.toVInode⟩ size
  write := some fun s ip seek buf =>
    match Ext2.fsWrite s ⟨seek, ip.toVInode⟩ buf with
    | (s, status, v) => (s, status, { ip with toVInode := v })
  seek := none
  truncate := some fun s ip =>
    match Ext2.fsTruncate s ip.toVInode with
    | (s, status) => (s, status, ip)
  create := some fun s dir name ip =>
    match Ext2.fsCreate s dir.toVInode name ip.toVInode with
    | (s, status, v) => (s, status, { ip with toVInode := v })
  mkdir := some fun s dir name ip =>
    match Ext2.fsMkdir s dir.toVInode name ip.toVInode with
    | (s, status, v) => (s, status, { ip with toVInode := v })
  remove := some fun s dir name ip => Ext2.fsRemove s dir.toVInode name ip.toVInode
  rmdir := some fun s dir name ip => Ext2.fsRemove s dir.toVInode name ip.toVInode
  rename := some fun s src dst =>
    match Ext2.fsRename s src.1.toVInode src.2.1 src.2.2.toVInode ⟨dst.2.1, dst.2.2.map (·.toVInode),
      dst.1.toVInode⟩ with
    | (s, status, v) => (s, status, { src.2.2 with toVInode := v })
  mount s _ := ext2fsMount s
  umount s _ := (s, 0)

end Novino.Vfs
