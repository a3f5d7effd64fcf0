import Novino.Ext2.Dirent

/-! Reading and writing of files (`ext2_read`, `ext2_write`). -/

namespace Novino.Ext2
open State

structure File where
  seek : Nat
  inode : VInode

/-- How `size` bytes at `seek` fall into blocks: `fsize` bytes at `fstart` of the first one, `whole` blocks and `esize`
bytes of the last one. -/
structure Split where
  offset : Nat
  fstart : Nat
  fsize : Nat
  whole : Nat
  esize : Nat
  deriving DecidableEq, Repr

def split (blockSize seek size : Nat) : Split :=
  let fstart := seek % blockSize
  let fsize := if fstart = 0 then 0 else min size (blockSize - fstart)
  { offset := seek / blockSize, fstart, fsize,
    whole := (size - fsize) / blockSize, esize := (size - fsize) % blockSize }

def toInt32 (n : Nat) : Int := if n % 2 ^ 32 < 2 ^ 31 then (n % 2 ^ 32 : Nat) else (n % 2 ^ 32 : Nat) - 2 ^ 32

variable (s : State) (inode : Addr)

/-- Reads the block at `offset` of the file into the block buffer: the status of the function, or none. -/
def readBlock (offset : Nat) : State × Option Int :=
  match inodeGetBlock s inode offset with
  | (s, block) =>
    if block = 0 then (s, some s.errno)
    else
      match readDirect s block with
      | (s, status, data) => if status < 0 then (s, some status) else ({ s with blkbuf := data }, none)

def readWhole (s : State) (inode : Addr) (offset : Nat) (buf : List Byte) : Nat → State × Option Int × List Byte
  | 0 => (s, none, buf)
  | n + 1 =>
    match readBlock s inode offset with
    | (s, some status) => (s, some status, buf)
    | (s, none) => readWhole s inode (offset + 1) (buf ++ s.blkbuf.rdBytes 0 s.sb.blockSize) n

def read (file : File) (size : Nat) : State × Int × List Byte :=
  match inodeRead s file.inode.ino false with
  | (s, none) => (s, s.errno, [])
  | (s, some inode) =>
    let p := split s.sb.blockSize file.seek size
    match (if p.fsize = 0 then (s, none, [], p.offset)
      else
        match readBlock s inode p.offset with
        | (s, some status) => (s, some status, [], p.offset)
        | (s, none) => (s, none, s.blkbuf.rdBytes p.fstart p.fsize, p.offset + 1) :
          State × Option Int × List Byte × Nat) with
    | (s, some status, buf, _) => (s, status, buf)
    | (s, none, buf, offset) =>
      match readWhole s inode offset buf p.whole with
      | (s, some status, buf) => (s, status, buf)
      | (s, none, buf) =>
        if p.esize = 0 then (s, toInt32 size, buf)
        else
          match readBlock s inode (offset + p.whole) with
          | (s, some status) => (s, status, buf)
          | (s, none) => (s, toInt32 size, buf ++ s.blkbuf.rdBytes 0 p.esize)

/-- Writes a part of the block at `offset` of the file through the block buffer, which is filled from the disk
    first when `keep`. -/
def writeBlock (offset start : Nat) (keep : Bool) (bytes : List Byte) :
    State × Option Int :=
  match inodeGetBlock s inode offset with
  | (s, block) =>
    if block = 0 then (s, some s.errno)
    else
      match (if keep then
          match readDirect s block with
          | (s, status, data) => if status < 0 then (s, some status) else ({ s with blkbuf := data }, none)
        else (s, none) : State × Option Int) with
      | (s, some status) => (s, some status)
      | (s, none) =>
        let s := { s with blkbuf := s.blkbuf.wrBytes start bytes }
        match writeDirect s block s.blkbuf with
        | (s, status) => if status < 0 then (s, some status) else (s, none)

def writeWhole (s : State) (inode : Addr) (offset : Nat) (buf : List Byte) : Nat → State × Option Int
  | 0 => (s, none)
  | n + 1 =>
    match writeBlock s inode offset 0 false (buf.take s.sb.blockSize) with
    | (s, some status) => (s, some status)
    | (s, none) => writeWhole s inode (offset + 1) (buf.drop s.sb.blockSize) n

def writeData (seek : Nat) (buf : List Byte) : State × Option Int :=
  let size := buf.length
  let p := split s.sb.blockSize seek size
  match (if p.fsize = 0 then (s, none, p.offset)
    else
      match writeBlock s inode p.offset p.fstart true (buf.take p.fsize) with
      | (s, r) => (s, r, p.offset + 1) : State × Option Int × Nat) with
  | (s, some status, _) => (s, some status)
  | (s, none, offset) =>
    let buf := buf.drop p.fsize
    match writeWhole s inode offset buf p.whole with
    | (s, some status) => (s, some status)
    | (s, none) =>
      if p.esize = 0 then (s, none)
      else
        let keep := decide (seek + size - p.esize < s.u32 inode Inode.size)
        writeBlock s inode (offset + p.whole) 0 keep (buf.drop (p.whole * s.sb.blockSize))

def write (file : File) (buf : List Byte) : State × Int × VInode :=
  let ip := file.inode
  match inodeRead s ip.ino true with
  | (s, none) => (s, s.errno, ip)
  | (s, some inode) =>
    -- check if we need to allocate more blocks
    let a := blocksDist s.sb (s.u32 inode Inode.sectors / s.sb.sectorsPerBlock) true
    let nsize := file.seek + buf.length
    match (if nsize > a.dnum * s.sb.blockSize then
        inodeExpand s ip.ino ((nsize + s.sb.blockSize - 1) / s.sb.blockSize % 2 ^ 32) false
      else (s, 0)) with
    | (s, status) =>
      if status < 0 then (s, status, ip)
      else
        match writeData s inode file.seek buf with
        | (s, some status) => (s, status, ip)
        | (s, none) =>
          let s := if nsize > s.u32 inode Inode.size then s.set32 inode Inode.size nsize else s
          let s := inodeSettime s inode .mtime
          (s, toInt32 buf.length, inodeGetattr s ip inode 0)

end Novino.Ext2
