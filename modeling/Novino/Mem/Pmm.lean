import Novino.Lib.Words

/-! The allocator of page frames (`kernel/mem/pmm.c`): a bitmap of the free frames, with their number and the index of
    the first word that may have one. Addresses are 64-bit numbers; frame numbers, indexes, counts and the arguments of
    `pmm_alloc_frames` are 32-bit numbers, which wrap around. -/

namespace Novino.Mem

def PAGE_SIZE : Nat := 0x1000

def alignDown (addr : Nat) : Nat := addr / PAGE_SIZE * PAGE_SIZE

/-- An address that is rounded up to the next page, with the addition in 64 bits. -/
def alignUp (addr : Nat) : Nat := if addr % PAGE_SIZE = 0 then addr else (alignDown addr + PAGE_SIZE) % 2 ^ 64

/-- The bitmap of the frames and the counters of `pmm.c`. -/
structure Pmm where
  bitmap : Words
  maxIndex : Nat
  curIndex : Nat
  freePages : Nat

namespace Pmm

/-- The frame of an address, as the 32-bit variable `frame` holds it. -/
def frame (address : Nat) : Nat := address / PAGE_SIZE % 2 ^ 32

/-- `pmm_init` before it asks for the available memory. -/
def init (maxIndex : Nat) : Pmm := ⟨fun _ => 0, maxIndex, 0, 0⟩

variable (s : Pmm)

def freeFrame (address : Nat) : Pmm :=
  let frame := frame address
  let index := frame / 64
  if s.maxIndex ≤ index then s
  else
    let s := if index < s.curIndex then { s with curIndex := index } else s
    if s.bitmap.bit frame then s
    else { s with bitmap := s.bitmap.setBit frame, freePages := (s.freePages + 1) % 2 ^ 32 }

def setFrame (address : Nat) : Pmm :=
  let frame := frame address
  let index := frame / 64
  if s.maxIndex ≤ index then s
  else if s.bitmap.bit frame then
    { s with bitmap := s.bitmap.clrBit frame, freePages := (s.freePages + (2 ^ 32 - 1)) % 2 ^ 32 }
  else s

/-- The loop of `pmm_alloc_frame` from word `i` on, with the number of words that are left. -/
def allocLoop : Nat → Nat → Pmm × Nat
  | 0, _ => (s, 0)
  | n + 1, i =>
    if s.bitmap i = 0 then allocLoop n (i + 1)
    else
      let address := (i * 64 + Words.ctz (s.bitmap i)) * PAGE_SIZE
      ({ s.setFrame address with curIndex := i }, address)

def allocFrame : Pmm × Nat := s.allocLoop (s.maxIndex - s.curIndex) s.curIndex

/-- The loop `while(addr < end)` of a range operation; both addresses are aligned, so that `addr` does not wrap around.
-/
def eachPage (f : Pmm → Nat → Pmm) : Nat → Nat → Pmm → Pmm
  | 0, _, s => s
  | n + 1, addr, s => eachPage f n (addr + PAGE_SIZE) (f s addr)

def setAvailable (start size : Nat) : Pmm :=
  if size < 0x100000 then s
  else
    let end_ := alignDown ((start + size) % 2 ^ 64)
    let addr := alignUp start
    eachPage freeFrame ((end_ - addr) / PAGE_SIZE) addr s

def setReserved (start size : Nat) : Pmm :=
  let end_ := alignUp ((start + size) % 2 ^ 64)
  let addr := alignDown start
  eachPage setFrame ((end_ - addr) / PAGE_SIZE) addr s

/-- The two loops of `pmm_alloc_frames` as one over the frames from `k` on. There is no result when an address is
divided by an alignment of 0. -/
def framesLoop (num align : Nat) : Nat → (k count start : Nat) → Option (Pmm × Nat)
  | 0, _, _, _ => some (s, 0)
  | n + 1, k, count, start =>
    if s.bitmap.bit k then
      let start := if count = 0 then k * PAGE_SIZE else start
      if align = 0 then none
      else
        let count := if start % align = 0 then count + 1 else 0
        if count = num then some (s.setReserved start (count * PAGE_SIZE % 2 ^ 32), start)
        else framesLoop num align n (k + 1) count start
    else framesLoop num align n (k + 1) 0 start

def allocFrames (num align : Nat) : Option (Pmm × Nat) :=
  if num = 0 then some (s, 0)
  else if align = 0 then some (s, 0)
  else s.framesLoop num (align * PAGE_SIZE % 2 ^ 32) (64 * s.maxIndex - 64 * s.curIndex) (64 * s.curIndex) 0 0

end Pmm

/-- The calls of `pmm.c`, with the ranges that are reported at the start. -/
inductive FrameOp
  | alloc
  | allocMany (num align : Nat)
  | free (address : Nat)
  | available (start size : Nat)
  | reserve (start size : Nat)
  deriving DecidableEq, Repr

/-- The state after an operation; one that faults leaves the state as it was. -/
def Pmm.step (s : Pmm) : FrameOp → Pmm
  | .alloc => s.allocFrame.1
  | .allocMany num align => ((s.allocFrames num align).map Prod.fst).getD s
  | .free address => s.freeFrame address
  | .available start size => s.setAvailable start size
  | .reserve start size => s.setReserved start size

end Novino.Mem
