import Novino.Mem.Arena
import Novino.Mem.Pmm

/-! The kernel heap (`kernel/mem/heap.c`). Whether `vmm_alloc_page` finds a page is left open: `pages n` says whether
    its call number `n` does. -/

namespace Novino.Mem

def KHEAP : Nat := 0xFFFFE00000000000

def KHEAP_SIZE : Nat := 0x100000000000

def HEAP_SBRK_SIZE : Nat := 0x100000

namespace Arena

def splitChunk (h : Arena) (chunk size : Nat) : Arena :=
  if h.size chunk < (size + HEAP_DATA_ALIGN + HEAP_HEADER_SIZE) % 2 ^ 64 then h
  else
    let next := chunkNext chunk size
    let h := h.setPrev next chunk
    let h := h.setNext next (h.next chunk)
    let h := h.setSize next (h.chunkSize next)
    let h := h.insertFreeChunk next
    let h := h.setPrev (h.next chunk) next
    let h := h.setNext chunk next
    h.setSize chunk size

def glueNext (h : Arena) (chunk : Nat) : Arena :=
  if h.isFree (h.next chunk) ≠ 0 then
    let h := h.removeFreeChunk chunk
    let h := h.removeFreeChunk (h.next chunk)
    let h := h.joinNext chunk
    h.insertFreeChunk chunk
  else h

end Arena

/-- `heap_t`, without `first`, which nothing reads. -/
structure Heap extends Arena where
  start : Nat
  size : Nat
  fin : Nat
  pages : Nat → Bool
  asked : Nat

namespace Heap

def withArena (h : Heap) (arena : Arena) : Heap := { h with toArena := arena }

variable (h : Heap) (size : Nat)

/-- The loop of `heap_sbrk` with the number of pages that are left, and the bytes it got so far. -/
def sbrkLoop (h : Heap) : Nat → Nat → Heap × Nat
  | 0, size => (h, size)
  | n + 1, size =>
    if h.pages h.asked then sbrkLoop { h with asked := h.asked + 1 } n (size + PAGE_SIZE)
    else ({ h with asked := h.asked + 1 }, size)

def heapSbrk : Heap × Nat :=
  let size := alignSize size HEAP_SBRK_SIZE
  let addr := (h.start + h.size) % 2 ^ 64
  let fin := (addr + size) % 2 ^ 64
  if h.start + KHEAP_SIZE < fin then (h, 0)
  else
    let r := h.sbrkLoop ((fin - addr + (PAGE_SIZE - 1)) / PAGE_SIZE) 0
    ({ r.1 with size := r.1.size + r.2, fin := r.1.fin + r.2 }, r.2)

def heapExpand : Heap × Nat :=
  let size := (size + HEAP_HEADER_SIZE) % 2 ^ 64
  let old := h.fin - HEAP_HEADER_SIZE
  let r := h.heapSbrk size
  if r.2 < size then (r.1, 0)
  else
    let new := r.1.fin - HEAP_HEADER_SIZE
    let g := r.1.toArena.moveGuard Arena.glueNext old new
    (r.1.withArena g.1, g.2)

def findFreeChunk : Heap × Nat :=
  let chunk := h.findLoop size (2 ^ 64) h.freeList
  if chunk ≠ 0 then (h, chunk) else h.heapExpand size

/-- `kmalloc`, once `heap_init` has run. -/
def kmalloc : Heap × Nat :=
  if size = 0 then (h, 0)
  else
    let size := alignSize size HEAP_DATA_ALIGN
    let r := h.findFreeChunk size
    let chunk := r.2
    if chunk = 0 then (r.1, 0)
    else
      let arena := r.1.toArena.splitChunk chunk size
      (r.1.withArena (arena.removeFreeChunk chunk), chunk + HEAP_HEADER_SIZE)

def kfree (ptr : Nat) : Heap :=
  if ptr < h.start then h
  else if h.fin < ptr then h
  else
    let chunk := sub64 ptr HEAP_HEADER_SIZE
    let arena := h.toArena.insertFreeChunk chunk
    let g := arena.glueBack chunk
    h.withArena (g.1.glueNext g.2)

/-- The static variables before `heap_init` asks for memory, which holds anything. -/
def empty (mem : Nat → Nat) (pages : Nat → Bool) : Heap := ⟨⟨mem, 0⟩, KHEAP, 0, KHEAP, pages, 0⟩

def init (mem : Nat → Nat) (pages : Nat → Bool) : Heap :=
  let h := ((empty mem pages).heapSbrk 1).1
  h.withArena (h.toArena.guards h.start h.fin)

end Heap

/-- The calls of the kernel heap. -/
inductive HeapOp where
  | kmalloc (size : Nat)
  | kfree (ptr : Nat)

/-- The heap with its users: the size that was asked for, for each pointer they hold. -/
structure Kernel where
  heap : Heap
  live : Nat → Option Nat

namespace Kernel

def init (mem : Nat → Nat) (pages : Nat → Bool) : Kernel := ⟨Heap.init mem pages, fun _ => none⟩

def step (s : Kernel) : HeapOp → Kernel
  | .kmalloc size =>
    let r := s.heap.kmalloc size
    ⟨r.1, if r.2 = 0 then s.live else Function.update s.live r.2 (some size)⟩
  | .kfree ptr => ⟨s.heap.kfree ptr, Function.update s.live ptr none⟩

end Kernel
end Novino.Mem
