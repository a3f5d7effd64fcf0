import Novino.Ext2.Types

/-! Context caching, reading and writing of blocks: `ext2_read_direct` to `ext2_ctx_free`. -/

namespace Novino.Ext2
open State

variable (s : State) (block : Nat)

/-- The first sector of a block, computed in 32 bits as the driver does. -/
def State.sector : Nat := block * s.sb.sectorsPerBlock % 2 ^ 32

/-- `ext2_read_direct`: the status of the device and, when it is not negative, the block. -/
def readDirect : State × Int × Block :=
  ({ s with ios := s.ios + 1 }, s.io s.ios, s.disk (s.sector block))

def writeDirect (data : Block) : State × Int :=
  let status := s.io s.ios
  if status < 0 then ({ s with ios := s.ios + 1 }, status)
  else ({ s with ios := s.ios + 1, disk := fun k => if k = s.sector block then data else s.disk k }, status)

def lookupCached (create : Bool) : State × Option Blk :=
  match s.list.find block with
  | some item => (s, some item)
  | none =>
    if create = false then (s, none)
    else if s.mem s.mems = false then ({ s with mems := s.mems + 1, errno := -ENOMEM }, none)
    else
      let item : Blk := { block, dirty := false, ready := false, data := Block.zero }
      ({ s with mems := s.mems + 1, list := s.list.put item }, some item)

def readCached (dirty : Bool) : State × Bool :=
  match lookupCached s block true with
  | (s, none) => (s, false)
  | (s, some item) =>
    let item := { item with dirty := item.dirty || dirty }
    let s := { s with list := s.list.put item }
    if item.ready then (s, true)
    else
      match readDirect s block with
      | (s, status, data) =>
        if status < 0 then ({ s with errno := status }, false)
        else ({ s with list := s.list.put { item with ready := true, data } }, true)

def writeCached : State :=
  match s.list.find block with
  | some item => { s with list := s.list.put { item with dirty := true } }
  | none => s

/-- `ext2_init_cached`: a new item is zeroed by its allocation, the buffer of a ready one is cleared. -/
def initCached : State × Bool :=
  match lookupCached s block true with
  | (s, none) => (s, false)
  | (s, some item) =>
    let data := if item.ready then Block.zero else item.data
    ({ s with list := s.list.put { item with ready := true, dirty := true, data } }, true)

/-- `ext2_ctx_alloc` when the default context is free, as it is between operations: its lists and buffers stay as they
were. -/
def ctxAlloc : State := { s with ptrIdent := 0, errno := 0 }

/-- The loop of `ext2_ctx_free`: pops the cached blocks and writes the dirty ones. The status of the device is
    not looked at. -/
def ctxFlush (s : State) (flush : Bool) : List Blk → State
  | [] => { s with list := Cache.empty }
  | item :: items => ctxFlush (if flush && item.dirty then (writeDirect s item.block item.data).1 else s) flush items

/-- `ext2_ctx_free`: the dirty blocks reach the disk only when nothing failed. -/
def ctxFree (status : Int) : State :=
  ctxFlush s (!decide (status < 0 ∨ s.errno < 0)) s.list.items

end Novino.Ext2
