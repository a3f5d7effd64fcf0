import Novino.Storage.Blkdev

/-! The scan of a disk for partitions (`kernel/storage/partmgr.c`). -/

namespace Novino.Storage

/-- A block device and its content. -/
structure Drive where
  bd : Blkdev
  data : Block
  /-- What the driver returns for a request for sectors. -/
  transfer : Nat → Nat → Int
  /-- Whether the kernel heap has a number of bytes. -/
  heap : Nat → Bool

/-- A partition that was registered. -/
structure Part where
  id : Nat
  offset : Nat
  size : Nat
deriving DecidableEq, Repr

namespace Drive

variable (d : Drive) (buf : Block)

def blkdevRead (offset count : Nat) : Except Int Block :=
  match d.bd.blkdevRw offset count with
  | none => .error (-EINVAL)
  | some (lba, count) =>
    if d.transfer lba count < 0 then .error (d.transfer lba count) else .ok fun i => d.data (lba * d.bd.bps + i)

/-- `partmgr_register`. A device whose name exists is not registered again, which is no error. -/
def partmgrRegister (parts : List Part) (id offset size : Nat) : List Part × Int :=
  if d.bd.sectors < (offset + size) % 2 ^ 64 then (parts, -EINVAL)
  else if parts.any (·.id = id) then (parts, 0)
  else (parts ++ [⟨id, offset, size⟩], 0)

/-! ### GPT -/

def GPT_ENTRY_SIZE : Nat := 128

def lbaFirst (entry : Nat) : Nat := buf.rd64 (entry + 32)
def lbaLast (buf : Block) (entry : Nat) : Nat := buf.rd64 (entry + 40)

structure GptHeader where
  paLba : Nat
  paCount : Nat
  paSize : Nat
deriving DecidableEq, Repr

def gptHeader : GptHeader := ⟨buf.rd64 72, buf.rd32 80, buf.rd32 84⟩

/-- The number of sectors that the array is read with. The product has 32 bits. -/
def gptSectors (h : GptHeader) : Nat := 1 + h.paCount * h.paSize % 2 ^ 32 / d.bd.bps

/-- What the scan has done: the partitions it registered, and where in the buffer it read entries. -/
structure Scan where
  parts : List Part
  reads : List Nat
  status : Int

def gptLoop (buf : Block) : Nat → Nat → Scan → Scan
  | 0, _, s => s
  | count + 1, n, s =>
    let entry := GPT_ENTRY_SIZE * n
    let s := { s with reads := s.reads ++ [entry] }
    if lbaFirst buf entry ≠ 0 ∧ lbaLast buf entry ≠ 0 then
      let size := (lbaLast buf entry + (2 ^ 64 - lbaFirst buf entry) + 1) % 2 ^ 64
      let r := d.partmgrRegister s.parts n (lbaFirst buf entry) size
      let s := { s with parts := r.1 }
      if r.2 < 0 then { s with status := r.2 } else gptLoop buf count (n + 1) s
    else gptLoop buf count (n + 1) s

/-- The first part of `gpt_table`: the header and the buffer with the array. -/
def gptRead : Except Int (GptHeader × Block) :=
  if !d.heap d.bd.bps then .error (-ENOMEM)
  else
    match d.blkdevRead 1 1 with
    | .error e => .error e
    | .ok buf =>
      let hdr := gptHeader buf
      let count := d.gptSectors hdr
      if !d.heap (count * d.bd.bps) then .error (-ENOMEM)
      else
        match d.blkdevRead hdr.paLba count with
        | .error e => .error e
        | .ok buf => .ok (hdr, buf)

/-- `gpt_table`, with memory behind the buffer that holds anything. -/
def gptTable (behind : Block) (parts : List Part) : Scan :=
  match d.gptRead with
  | .error e => ⟨parts, [], e⟩
  | .ok (hdr, buf) =>
    let size := d.gptSectors hdr * d.bd.bps
    d.gptLoop (fun i => if i < size then buf i else behind (i - size)) hdr.paCount 0 ⟨parts, [], 0⟩

/-! ### MBR -/

def MBR_ENTRY : Nat := 0x1BE

def MBR_ENTRY_SIZE : Nat := 16

structure MbrEntry where
  type : Nat
  lbaStart : Nat
  lbaSize : Nat
deriving DecidableEq, Repr

def mbrEntry (n : Nat) : MbrEntry :=
  let entry := MBR_ENTRY + MBR_ENTRY_SIZE * n
  ⟨buf.rd8 (entry + 4), buf.rd32 (entry + 8), buf.rd32 (entry + 12)⟩

def MbrEntry.Extended (e : MbrEntry) : Prop := e.type = 0x05 ∨ e.type = 0x0F

instance (e : MbrEntry) : Decidable e.Extended := inferInstanceAs (Decidable (_ ∨ _))

def MbrEntry.Filled (e : MbrEntry) : Prop := e.type ≠ 0 ∧ e.lbaSize ≠ 0

instance (e : MbrEntry) : Decidable e.Filled := inferInstanceAs (Decidable (_ ∧ _))

/-- `mbr_extended`, with a bound for its depth; nothing when the bound is reached. -/
def mbrExtended : Nat → Nat → Nat → List Part → Option (List Part × Int)
  | 0, _, _, _ => none
  | depth + 1, id, start, parts =>
    if !d.heap d.bd.bps then some (parts, -ENOMEM)
    else
      match d.blkdevRead start 1 with
      | .error e => some (parts, e)
      | .ok buf =>
        let part := mbrEntry buf 0
        let next := mbrEntry buf 1
        let r := if part.Filled then d.partmgrRegister parts id ((start + part.lbaStart) % 2 ^ 64) part.lbaSize
          else (parts, 0)
        if r.2 < 0 then some r
        else if next.Extended then mbrExtended depth (id + 1) ((start + next.lbaStart) % 2 ^ 64) r.1
        else some (r.1, 0)

/-- The loop of `partmgr_init` over the entries of the first table from `n` on. -/
def mbrLoop (buf : Block) (depth : Nat) : Nat → Nat → List Part → Option (List Part × Int)
  | 0, _, parts => some (parts, 0)
  | count + 1, n, parts =>
    let part := mbrEntry buf n
    let r := if part.Extended then d.mbrExtended depth 4 part.lbaStart parts
      else if part.Filled then some (d.partmgrRegister parts n part.lbaStart part.lbaSize)
      else some (parts, 0)
    match r with
    | none => none
    | some (parts, status) => if status < 0 then some (parts, status) else mbrLoop buf depth count (n + 1) parts

/-- `partmgr_init` of a disk that can be opened, with a bound for the depth of the extended tables. -/
def partmgrInit (behind : Block) (depth : Nat) : Option (List Part × Int) :=
  if !d.heap d.bd.bps then some ([], -ENOMEM)
  else
    match d.blkdevRead 0 1 with
    | .error e => some ([], e)
    | .ok buf =>
      if buf.rd16 0x1FE ≠ 0xAA55 then some ([], 0)
      else if (mbrEntry buf 0).type = 0xEE then
        let s := d.gptTable behind []
        some (s.parts, s.status)
      else d.mbrLoop buf depth 4 0 []

end Drive
end Novino.Storage
