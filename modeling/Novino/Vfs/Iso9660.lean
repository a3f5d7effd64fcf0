import Novino.Ext2.File
import Novino.Storage.Blkdev

/-! The ISO 9660 file system (`kernel/vfs/iso9660.c`): directory records, walks of directories and reading of files. -/

namespace Novino.Iso9660
open Ext2 (Name VInode Split split toInt32 I_FILE I_DIR I_SYMLINK ENOMEM)

/-! ### Directory records

A record is given by the buffer from its first byte on. The fields are those of `iso9660_dirent_t`. -/

def Record.extent : Nat := 2
def Record.extentSize : Nat := 10
def Record.flags : Nat := 25
def Record.filenameLength : Nat := 32
def Record.filename : Nat := 33

def semicolon : Byte := 0x3B
def dot : Byte := 0x2E

def cstr (filename : Block) : Name := (filename.rdBytes 0 256).takeWhile (· != 0)

/-- The loop that copies an identifier. For a semicolon at the start the source looks at the byte before the identifier,
and may write before the buffer. -/
def identLoop (record : Block) : (n i : Nat) → Block → Block
  | 0, _, filename => filename
  | n + 1, i, filename =>
    if record (Record.filename + i) = semicolon then
      if record (Record.filename + i - 1) = dot ∧ i ≠ 0 then filename.wr8 (i - 1) 0 else filename
    else identLoop record n (i + 1) (filename.wr8 i (record.rd8 (Record.filename + i)))

variable (record : Block) (dev : (offset count : Nat) → Except Int (List Byte))

def baseName (filename : Block) (joliet : Bool) : Block :=
  if joliet then
    let size := record.rd8 Record.filenameLength / 2
    fun i => if i < size then record (Record.filename + (2 * i + 1)) else if i = size then 0 else filename i
  else
    let size := record.rd8 Record.filenameLength
    identLoop record size 0 (filename.wr8 size 0)

def pxFlags (mode : Nat) : Nat :=
  if mode &&& 0o40000 ≠ 0 then I_DIR
  else if mode &&& 0o100000 ≠ 0 then I_FILE
  else if mode &&& 0o120000 ≠ 0 then I_SYMLINK
  else 0

def px (susp : Nat) (inode : VInode) : VInode :=
  let mode := record.rd32 (susp + 4)
  { inode with mode := mode &&& 0x1FF, flags := pxFlags mode, uid := record.rd32 (susp + 20), gid :=
    record.rd32 (susp + 28) }

/-- An NM entry. When its length is below that of its header the source writes before the buffer. -/
def nm (susp : Nat) (filename : Block) : Block :=
  let length := record.rd8 (susp + 2)
  if length < 5 then filename
  else fun i => if i < length - 5 then record (susp + 5 + i) else if i = length - 5 then 0 else filename i

def PX : Nat := 0x5850
def NM : Nat := 0x4D4E

def suspLoop (record : Block) (susp : Nat) (filename : Block) (inode : VInode) : Block × VInode :=
  if susp < record.rd8 0 - 1 then
    let length := record.rd8 (susp + 2)
    let type := record.rd16 susp
    let inode := if type = PX then px record susp inode else inode
    let filename := if type = NM then nm record susp filename else filename
    if length = 0 then (filename, inode) else suspLoop record (susp + length) filename inode
  else (filename, inode)
termination_by record.rd8 0 - susp

def suspStart : Nat :=
  let susp := Record.filename + record.rd8 Record.filenameLength
  if susp % 2 ≠ 0 then susp + 1 else susp

/-- `iso9660_dirent`: the buffer of the name and the inode. -/
def dirent (filename : Block) (joliet : Bool) : Block × VInode :=
  let filename := baseName record filename joliet
  let dir := record.rd8 Record.flags &&& 0x02 != 0
  let inode : VInode := {
    ino := record.rd32 Record.extent, flags := if dir then I_DIR else I_FILE, mode := if dir then 0o555 else 0o444
    links := 0, uid := 0, gid := 0, size := record.rd32 Record.extentSize, blocks := 0, blksz := 0
    atime := 0, mtime := 0, ctime := 0 }
  suspLoop record (suspStart record) filename inode

/-! ### Walks of directories -/

/-- The variables of `iso9660_walk_directory`. `emitted` are the offsets of the records that were used; `outside` tells
that a record behind the directory was looked at. -/
structure Walk (σ : Type) where
  cs : Nat := 0
  offset : Nat := 0
  seek : Nat
  filename : Block
  value : σ
  emitted : List Nat := []
  outside : Bool := false

def isDots : Bool :=
  record.rd8 Record.filenameLength == 1 && (record Record.filename == 0 || record Record.filename == 1)

/-- The loop over the `ns` sectors of a directory that was read to `dir`; `visit` stands for the two uses of a record.
-/
def walkLoop {σ : Type} (dir : Block) (bps ns : Nat) (joliet : Bool) (visit : σ → Name → VInode → σ × Bool)
    (w : Walk σ) : Walk σ :=
  if w.cs < ns then
    if ns * bps ≤ w.offset then { w with outside := true }
    else
      let record := dir.drop w.offset
      let length := dir.rd8 w.offset
      if length = 0 then walkLoop dir bps ns joliet visit { w with cs := w.cs + 1, offset := bps * (w.cs + 1) }
      else if isDots record then walkLoop dir bps ns joliet visit { w with offset := w.offset + length }
      else if w.seek ≠ 0 then
        walkLoop dir bps ns joliet visit { w with offset := w.offset + length, seek := w.seek - 1 }
      else
        let (filename, inode) := dirent record w.filename joliet
        let inode := { inode with blksz := bps, blocks := (inode.size + bps - 1) / bps }
        let used := visit w.value (cstr filename) inode
        let next := { w with
          offset := w.offset + length, filename, value := used.1, emitted := w.emitted ++ [w.offset] }
        if used.2 then next else walkLoop dir bps ns joliet visit next
  else w
termination_by (ns - w.cs) * (ns * bps + 1) + (ns * bps - w.offset)
decreasing_by
  · have hcs : ns - w.cs = ns - (w.cs + 1) + 1 := by omega
    rw [hcs, Nat.succ_mul]
    omega
  all_goals omega

/-! ### Reading of files -/

/-- `blkdev_read`: the answer of the driver to a request that `blkdev_rw` passes on. -/
def blkdevRead (bd : Storage.Blkdev) (driver : (offset count : Nat) → Except Int (List Byte)) (offset count : Nat) :
    Except Int (List Byte) :=
  match bd.blkdevRw offset count with
  | none => .error (-Storage.EINVAL)
  | some (offset, count) => driver offset count

def readSector (offset start size : Nat) :
    Except Int (List Byte) :=
  if size = 0 then .ok [] else (dev offset 1).map fun tmpbuf => (tmpbuf.drop start).take size

def readWhole (offset count : Nat) : Except Int (List Byte) :=
  if count = 0 then .ok [] else dev offset count

def readParts (ino : Nat)
    (p : Split) : Except Int (List Byte) := do
  let offset := p.offset + ino
  let first ← readSector dev offset p.fstart p.fsize
  let offset := if p.fsize = 0 then offset else offset + 1
  let whole ← readWhole dev offset p.whole
  let last ← readSector dev (offset + p.whole) 0 p.esize
  return first ++ whole ++ last

/-- `iso9660_read`: the status, and the bytes in the buffer unless it failed. `mem` tells whether the buffer for one
    sector can be allocated. -/
def iso9660Read (bps : Nat) (dev : (offset count : Nat) → Except Int (List Byte)) (mem : Bool) (ino seek size : Nat) :
    Int × List Byte :=
  if mem = false then (-ENOMEM, [])
  else
    match readParts dev ino (split bps seek size) with
    | .error e => (e, [])
    | .ok buf => (toInt32 size, buf)

end Novino.Iso9660
