import Mathlib.Algebra.Group.Nat.Defs
import Mathlib.Logic.Function.Basic

/-! Chunks of a heap in raw memory: what the kernel's allocator (`kernel/mem/heap.c`) and the one of the C library
    (`libc/stdlib/malloc.c`) share. A chunk is named by the address of its header, the four words `prev`, `next`, `size`
    and `free` of a `chunk_t`. A free chunk keeps the links of the free list in the first two words of its data,
    `chunk[1].prev` and `chunk[1].next` in the source. -/

namespace Novino.Mem

def HEAP_HEADER_SIZE : Nat := 32

def HEAP_DATA_ALIGN : Nat := 16

def alignSize (s a : Nat) : Nat := (s + (a - 1)) % 2 ^ 64 / a * a

def sub64 (a b : Nat) : Nat := (a + (2 ^ 64 - b)) % 2 ^ 64

def chunkNext (c s : Nat) : Nat := (c + HEAP_HEADER_SIZE + s) % 2 ^ 64

/-- The memory by words of 64 bits, and the first chunk of the free list. -/
@[ext] structure Arena where
  mem : Nat → Nat
  freeList : Nat

namespace Arena

variable (h : Arena) (chunk : Nat)

def write (a v : Nat) : Arena := { h with mem := Function.update h.mem a v }

section
variable (h : Arena) (c v : Nat)

def prev : Nat := h.mem c
def next : Nat := h.mem (c + 8)
def size : Nat := h.mem (c + 16)
def isFree : Nat := h.mem (c + 24)
def prevFree : Nat := h.mem (c + 32)
def nextFree : Nat := h.mem (c + 40)

def setPrev : Arena := h.write c v
def setNext : Arena := h.write (c + 8) v
def setSize : Arena := h.write (c + 16) v
def setFree : Arena := h.write (c + 24) v
def setPrevFree : Arena := h.write (c + 32) v
def setNextFree : Arena := h.write (c + 40) v

def chunkSize : Nat := sub64 (sub64 (h.next c) c) HEAP_HEADER_SIZE

end

def insertFreeChunk : Arena :=
  let h := h.setFree chunk 1
  let h := h.setNextFree chunk h.freeList
  let h := h.setPrevFree chunk 0
  let h := if h.freeList ≠ 0 then h.setPrevFree h.freeList chunk else h
  { h with freeList := chunk }

def unlink : Arena :=
  let h := if h.prevFree chunk ≠ 0 then h.setNextFree (h.prevFree chunk) (h.nextFree chunk) else h
  if h.nextFree chunk ≠ 0 then h.setPrevFree (h.nextFree chunk) (h.prevFree chunk) else h

def removeFreeChunk : Arena :=
  let h := h.setFree chunk 0
  let h := if h.freeList = chunk then { h with freeList := h.nextFree chunk } else h
  h.unlink chunk

def joinPrev : Arena :=
  let h := h.setSize (h.prev chunk) ((h.size (h.prev chunk) + (h.size chunk + HEAP_HEADER_SIZE)) % 2 ^ 64)
  let h := h.setNext (h.prev chunk) (h.next chunk)
  h.setPrev (h.next chunk) (h.prev chunk)

def joinNext : Arena :=
  let h := h.setSize chunk ((h.size chunk + (h.size (h.next chunk) + HEAP_HEADER_SIZE)) % 2 ^ 64)
  let h := h.setNext chunk (h.next (h.next chunk))
  h.setPrev (h.next chunk) chunk

/-- The backward part of `glue_chunk`, with the chunk it goes on with. -/
def glueBack : Arena × Nat :=
  if h.isFree (h.prev chunk) ≠ 0 then
    let h := h.removeFreeChunk chunk
    let h := h.removeFreeChunk (h.prev chunk)
    let h := h.joinPrev chunk
    let h := h.insertFreeChunk (h.prev chunk)
    (h, h.prev chunk)
  else (h, chunk)

/-- The loop of `find_free_chunk`: the first chunk with the size, or the null pointer. The number of rounds is never
used up on a list that ends. -/
def findLoop (h : Arena) (size : Nat) : Nat → Nat → Nat
  | 0, _ => 0
  | n + 1, chunk =>
    if chunk = 0 then 0
    else if size ≤ h.size chunk then chunk
    else findLoop h size n (h.nextFree chunk)

def setHeader (c prev next size free : Nat) : Arena :=
  (((h.setPrev c prev).setNext c next).setSize c size).setFree c free

/-- The headers of the two guards and of the free chunk between them, as both allocators write them at the start. -/
def guards (start fin : Nat) : Arena :=
  let first := start
  let h := h.setHeader first 0 (first + HEAP_HEADER_SIZE) 0 0
  let last := fin - HEAP_HEADER_SIZE
  let h := h.setHeader last (h.next first) 0 0 0
  let middle := h.next first
  let h := h.setHeader middle first last (sub64 (sub64 last middle) HEAP_HEADER_SIZE) 1
  h.insertFreeChunk middle

/-- The end of `heap_expand`: the old rear guard becomes a free chunk, which joins a free chunk before it with `glue`.
-/
def moveGuard (glue : Arena → Nat → Arena) (old new : Nat) : Arena × Nat :=
  let h := h.setNext old new
  let h := h.setSize old (h.chunkSize old)
  let h := h.setFree old 1
  let h := h.setHeader new old 0 0 0
  let h := h.insertFreeChunk old
  if h.isFree (h.prev old) ≠ 0 then
    let old := h.prev old
    (glue h old, old)
  else (h, old)

end Arena
end Novino.Mem
