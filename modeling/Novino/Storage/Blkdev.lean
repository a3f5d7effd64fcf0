import Novino.Lib.Bytes

/-! Block devices (`kernel/storage/blkdev.c`). Sizes and sector numbers are 64-bit numbers. What a driver says of its
    medium, and whether a transfer works, is left open. -/

namespace Novino.Storage

def EBUSY : Int := 3
def ENOMEM : Int := 23
def EINVAL : Int := 24

def BLKDEV_REMOVEABLE : Nat := 1

/-- What the `status` function of a driver writes into a descriptor, and what it returns. -/
structure Report where
  bps : Nat
  sectors : Nat
  flags : Nat
  status : Int
deriving DecidableEq, Repr

/-- `blkdev_t`. A partition has the offset of its first sector. -/
structure Blkdev where
  bps : Nat := 0
  sectors : Nat := 0
  offset : Nat := 0
  size : Nat := 0
  flags : Nat := 0
  lock : Bool := false
  dynsz : Bool := false
deriving DecidableEq, Repr

namespace Blkdev

variable (bd : Blkdev) (r : Report)

def update : Blkdev := { bd with bps := r.bps, sectors := r.sectors, flags := r.flags }

/-- `blkdev_alloc` up to the scan for partitions. -/
def blkdevAlloc (offset size : Nat) : Blkdev × Int :=
  let bd : Blkdev := { dynsz := size = 0 }
  let bd := bd.update r
  if r.status < 0 then
    if size ≠ 0 then (bd, r.status)
    else if bd.flags % 2 = BLKDEV_REMOVEABLE then (bd, 0)
    else (bd, r.status)
  else
    let size := if bd.dynsz then bd.sectors else size
    ({ bd with offset := offset, size := size }, 0)

def blkdevOpen : Blkdev × Int :=
  if bd.lock then (bd, -EBUSY)
  else
    let bd := { bd with lock := true }
    let bd := bd.update r
    if r.status < 0 then ({ bd with lock := false }, r.status)
    else ({ bd with size := if bd.dynsz then bd.sectors else bd.size }, 0)

def blkdevClose : Blkdev := { bd with lock := false }

/-- `blkdev_rw`: the sector and the number of sectors that the driver is asked for, or nothing when the request is
refused. -/
def blkdevRw (offset count : Nat) : Option (Nat × Nat) :=
  let offset := (offset + bd.offset) % 2 ^ 64
  if bd.sectors < offset then none
  else if bd.sectors < (offset + count) % 2 ^ 64 then none
  else some (offset, count)

end Blkdev
end Novino.Storage
