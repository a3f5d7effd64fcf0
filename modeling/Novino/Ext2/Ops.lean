import Novino.Ext2.File

/-! Creation and removal of files and directories (`ext2_remove` to `ext2_rename`), and the operations of the VFS,
    which run them in a context of their own (`ext2fs_read` to `ext2fs_mkdir`). -/

namespace Novino.Ext2
open State

/-- A directory entry of the VFS with the inode of its parent. A negative entry has no inode. -/
structure VDentry where
  name : Name
  inode : Option VInode
  parent : VInode

variable (s : State) (dir : VInode)

def remove (name : Name) (obj : VInode) : State × Int :=
  match (if obj.isDir then direntCheckEmpty s obj.ino else (s, 0)) with
  | (s, status) =>
    if status < 0 then (s, status)
    else
      match direntUnlink s dir name obj with
      | (s, status, _) =>
        if status < 0 then (s, status)
        else
          -- file: check for multiple hard links
          match (if obj.isDir then (s, none)
            else
              match inodeRead s obj.ino true with
              | (s, none) => (s, some s.errno)
              | (s, some inode) =>
                let links := s.u16 inode Inode.links
                if links > 1 then (s.set16 inode Inode.links (links - 1), some 0) else (s, none) :
                State × Option Int) with
          | (s, some status) => (s, status)
          | (s, none) =>
            match inodeTruncate s obj.ino with
            | (s, status) =>
              if status < 0 then (s, status)
              else
                match inodeFree s obj.ino with
                | (s, status) => if status < 0 then (s, status) else (s, 0)

def writeDots (block self parent : Nat) : State :=
  let size := align4 (8 + 1)
  let dot : Addr := ⟨block, 0⟩
  let dotdot : Addr := ⟨block, size⟩
  let typed := s.sb.featuresRequired &&& REQ_DIRENT_TYPE ≠ 0
  let s := s.set32 dot Dentry.inode self
  let s := s.set8 dot Dentry.length 1
  let s := s.set16 dot Dentry.size size
  let s := s.poke block (·.wrBytes Dentry.name [0x2e])
  let s := if typed then s.set8 dot Dentry.type 2 else s
  let s := s.set32 dotdot Dentry.inode parent
  let s := s.set8 dotdot Dentry.length 2
  let s := s.set16 dotdot Dentry.size (s.sb.blockSize - size)
  let s := s.poke block (·.wrBytes (size + Dentry.name) [0x2e, 0x2e])
  if typed then s.set8 dotdot Dentry.type 2 else s

def mkdir (name : Name) (obj : VInode) : State × Int × VInode :=
  let bg := sub32 dir.ino 1 / s.sb.inodesPerGroup
  -- find most empty block group for a new root directory
  match (if dir.ino = 2 then bgdSearch s bg else (s, 0, bg)) with
  | (s, status, bg) =>
    if status < 0 then (s, status, obj)
    else
      match inodeAlloc s bg 2 obj with
      | (s, none, obj) => (s, s.errno, obj)
      | (s, some inode, obj) =>
        match direntLink s dir name obj with
        | (s, status, dir) =>
          if status < 0 then (s, status, obj)
          else
            match inodeExpand s obj.ino 1 true with
            | (s, status) =>
              if status < 0 then (s, status, obj)
              else
                let block := s.u32 inode (Inode.block 0)
                match initCached s block with
                | (s, false) => (s, s.errno, obj)
                | (s, true) =>
                  let s := writeDots s block obj.ino dir.ino
                  (s, 0, inodeGetattr s obj inode 0)

def create (name : Name) (obj : VInode) : State × Int × VInode :=
  let bg := sub32 dir.ino 1 / s.sb.inodesPerGroup
  match inodeAlloc s bg 1 obj with
  | (s, none, obj) => (s, s.errno, obj)
  | (s, some inode, obj) =>
    match direntLink s dir name obj with
    | (s, status, _) => if status < 0 then (s, status, obj) else (s, 0, inodeGetattr s obj inode 0)

def renameDrop (dst : VInode) : State × Int :=
  match (if dst.isDir then direntCheckEmpty s dst.ino else (s, 0)) with
  | (s, status) =>
    if status < 0 then (s, status)
    else
      match inodeTruncate s dst.ino with
      | (s, status) => if status < 0 then (s, status) else inodeFree s dst.ino

def renameTarget (src : VInode) (dst : VDentry) : State × Int :=
  match dst.inode with
  | some ip =>
    match renameDrop s ip with
    | (s, status) => if status < 0 then (s, status) else direntRelink s dst.parent dst.name src
  | none =>
    match direntLink s dst.parent dst.name src with
    | (s, status, _) => (s, status)

/-- `ext2_rename` of the entry `name` of `parent`, whose inode is `src`: the status and the VFS inode. -/
def rename (parent : VInode) (name : Name) (src : VInode) (dst : VDentry) : State × Int × VInode :=
  match renameTarget s src dst with
  | (s, status) =>
    if status < 0 then (s, status, src)
    else
      -- unlink source
      match direntUnlink s parent name src with
      | (s, status, _) =>
        if status < 0 then (s, status, src)
        else
          match inodeRead s src.ino true with
          | (s, none) => (s, s.errno, src)
          | (s, some inode) =>
            let s := inodeSettime s inode .ctime
            let src := inodeGetattr s src inode 0
            -- update .. for directories
            if src.isDir then
              let block := s.u32 inode (Inode.block 0)
              match readCached s block true with
              | (s, false) => (s, s.errno, src)
              | (s, true) =>
                let dotdot : Addr := ⟨block, s.u16 ⟨block, 0⟩ Dentry.size⟩
                (s.set32 dotdot Dentry.inode dst.parent.ino, 0, src)
            else (s, 0, src)

/-! ### Wrapper functions for VFS operations -/

def inContext {α : Type} (s : State) (f : State → State × Int × α) : State × Int × α :=
  match f (ctxAlloc s) with
  | (s, status, v) => (ctxFree s status, status, v)

def fsRead (file : File) (size : Nat) : State × Int × List Byte :=
  inContext s fun s => read s file size

def fsWrite (file : File) (buf : List Byte) : State × Int × VInode :=
  inContext s fun s => write s file buf

def fsReaddir {σ : Type} (s : State) (ino seek : Nat) (put : σ → Name → VInode → σ × Bool) (data : σ) :
    State × Int × σ :=
  inContext s fun s => direntWalk s ino seek put data

/-- `ext2fs_lookup`: the inode found counts only with a known type. -/
def fsLookup (name : Name) : State × Int × Option VInode :=
  match inContext s fun s => direntWalk s dir.ino 0 (lookupVisit name) none with
  | (s, status, found) =>
    if status < 0 then (s, status, none)
    else
      match found with
      | some ip => if ip.flags = 0 then (s, -ENOENT, none) else (s, 0, some ip)
      | none => (s, -ENOENT, none)

def fsTruncate (ip : VInode) : State × Int :=
  match inContext s fun s => let (s, status) := inodeTruncate s ip.ino; (s, status, ()) with
  | (s, status, _) => (s, status)

def fsCreate (name : Name) (obj : VInode) : State × Int × VInode :=
  inContext s fun s => create s dir name obj

def fsRemove (name : Name) (obj : VInode) : State × Int :=
  match inContext s fun s => let (s, status) := remove s dir name obj; (s, status, ()) with
  | (s, status, _) => (s, status)

def fsRename (parent : VInode) (name : Name) (src : VInode) (dst : VDentry) : State × Int × VInode :=
  inContext s fun s => rename s parent name src dst

def fsMkdir (name : Name) (obj : VInode) : State × Int × VInode :=
  inContext s fun s => mkdir s dir name obj

end Novino.Ext2
