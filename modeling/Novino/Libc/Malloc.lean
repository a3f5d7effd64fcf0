import Novino.Mem.Arena
import Novino.Mem.Brk

/-! The allocator of the C library (`libc/stdlib/malloc.c`), which grows its heap with the break of the process. A
    `long` is kept as the 64-bit number it is converted from and to. -/

namespace Novino.Libc

open Novino.Mem

def HEAP_SBRK_ALIGN : Nat := 4096

variable (h : Arena)

def splitChunk (chunk size : Nat) : Arena :=
  if h.size chunk < (size + HEAP_DATA_ALIGN + HEAP_HEADER_SIZE) % 2 ^ 64 then h
  else
    let next := chunkNext chunk size
    let h := h.setPrev next chunk
    let h := h.setNext next (h.next chunk)
    let h := h.setSize next (h.chunkSize next)
    let h := h.setPrev (h.next chunk) next
    let h := h.setNext chunk next
    let h := h.setSize chunk size
    h.insertFreeChunk next

def glueNext (chunk : Nat) : Arena :=
  if h.isFree (h.next chunk) ≠ 0 then
    let free := h.isFree chunk
    let h := if free ≠ 0 then h.removeFreeChunk chunk else h
    let h := h.removeFreeChunk (h.next chunk)
    let h := h.joinNext chunk
    if free ≠ 0 then h.insertFreeChunk chunk else h
  else h

/-- `memset(ptr, 0, n)`. The bytes of a word behind the end keep their value. -/
def clear (ptr n : Nat) : Arena :=
  { h with mem := fun w =>
      if w < ptr ∨ ptr + n ≤ w then h.mem w
      else if w + 8 ≤ ptr + n then 0
      else h.mem w / 256 ^ (ptr + n - w) * 256 ^ (ptr + n - w) }

/-- `memcpy(dst, src, n)` for a number of bytes that fills words, as the size of a chunk does. -/
def copy (dst src n : Nat) : Arena :=
  { h with mem := fun w => if w < dst ∨ dst + n ≤ w then h.mem w else h.mem (src + (w - dst)) }

/-- The user heap, in the area of the break of a process. -/
structure Heap extends Arena where
  start : Nat
  fin : Nat
  proc : Process

namespace Heap

variable (h : Heap) (size : Nat)

def withArena (arena : Arena) : Heap := { h with toArena := arena }

def heapSbrk (sbrk : Nat) : Heap × Bool :=
  if 2 ^ 63 ≤ sbrk then (h, false)
  else
    let sbrk := alignSize sbrk HEAP_SBRK_ALIGN
    let r := h.proc.sysBrk ((h.fin + sbrk) % 2 ^ 64)
    match r.2 with
    | .error _ => ({ h with proc := r.1 }, false)
    | .ok fin => ({ h with fin := fin, proc := r.1 }, true)

def heapExpand : Heap × Nat :=
  let size := (size + HEAP_HEADER_SIZE) % 2 ^ 64
  let old := h.fin - HEAP_HEADER_SIZE
  let r := h.heapSbrk size
  if !r.2 then (r.1, 0)
  else
    let new := r.1.fin - HEAP_HEADER_SIZE
    let g := r.1.toArena.moveGuard glueNext old new
    (r.1.withArena g.1, g.2)

def findFreeChunk : Heap × Nat :=
  let chunk := h.findLoop size (2 ^ 64) h.freeList
  if chunk ≠ 0 then (h, chunk) else h.heapExpand size

def malloc : Heap × Nat :=
  if size = 0 then (h, 0)
  else
    let size := alignSize size HEAP_DATA_ALIGN
    let r := h.findFreeChunk size
    let chunk := r.2
    if chunk = 0 then (r.1, 0)
    else
      let arena := splitChunk r.1.toArena chunk size
      (r.1.withArena (arena.removeFreeChunk chunk), chunk + HEAP_HEADER_SIZE)

def free (ptr : Nat) : Heap :=
  if ptr < h.start then h
  else if h.fin < ptr then h
  else
    let chunk := sub64 ptr HEAP_HEADER_SIZE
    let arena := h.toArena.insertFreeChunk chunk
    let g := arena.glueBack chunk
    h.withArena (glueNext g.1 g.2)

def calloc (num size : Nat) : Heap × Nat :=
  if num = 0 ∨ size = 0 then (h, 0)
  else
    let r := h.malloc (num * size % 2 ^ 64)
    if r.2 = 0 then (r.1, 0)
    else (r.1.withArena (clear r.1.toArena r.2 (num * size % 2 ^ 64)), r.2)

def realloc (ptr size : Nat) : Heap × Nat :=
  if ptr = 0 then h.malloc size
  else if size = 0 then (h.free ptr, 0)
  else
    let size := alignSize size HEAP_DATA_ALIGN
    let chunk := sub64 ptr HEAP_HEADER_SIZE
    let origSize := h.toArena.size chunk
    if size ≤ origSize then (h.withArena (splitChunk h.toArena chunk size), ptr)
    else
      let h := h.withArena (glueNext h.toArena chunk)
      if size ≤ h.toArena.size chunk then (h.withArena (splitChunk h.toArena chunk size), ptr)
      else if h.toArena.size (h.next chunk) = 0 then
        let r := h.heapExpand size
        if r.2 = 0 then (r.1, 0)
        else
          let arena := glueNext r.1.toArena chunk
          (r.1.withArena (splitChunk arena chunk size), ptr)
      else
        let r := h.malloc size
        if r.2 = 0 then (r.1, 0)
        else
          let h := r.1.withArena (copy r.1.toArena r.2 ptr origSize)
          (h.free ptr, r.2)

/-- `__libc_heap_init`, in a memory that holds anything. When the break cannot be moved no chunk is made. -/
def init (mem : Nat → Nat) (proc : Process) : Heap :=
  let r := proc.sysBrk 0
  match r.2 with
  | .error _ => ⟨⟨mem, 0⟩, 0, 0, r.1⟩
  | .ok brk =>
    let h : Heap := ⟨⟨mem, 0⟩, brk, brk, r.1⟩
    let r := h.heapSbrk HEAP_SBRK_ALIGN
    if !r.2 then r.1 else r.1.withArena (r.1.toArena.guards r.1.start r.1.fin)

end Heap

/-- The calls of the user heap. -/
inductive Call where
  | malloc (size : Nat)
  | calloc (num size : Nat)
  | free (ptr : Nat)
  | realloc (ptr size : Nat)

namespace Call

def run (h : Heap) : Call → Heap × Nat
  | .malloc size => h.malloc size
  | .calloc num size => h.calloc num size
  | .free ptr => (h.free ptr, 0)
  | .realloc ptr size => h.realloc ptr size

def bytes : Call → Nat
  | .malloc size => size
  | .calloc num size => num * size
  | .free _ => 0
  | .realloc _ size => size

def block : Call → Nat
  | .malloc _ => 0
  | .calloc _ _ => 0
  | .free ptr => ptr
  | .realloc ptr _ => ptr

end Call

/-- The heap with its program: the size that was asked for, for each pointer the program holds. -/
structure Client where
  heap : Heap
  live : Nat → Option Nat

namespace Client

def init (mem : Nat → Nat) (proc : Process) : Client := ⟨Heap.init mem proc, fun _ => none⟩

/-- A call that returns a block ends the one it was passed, and so does a call for no bytes. -/
def step (s : Client) (call : Call) : Client :=
  let r := call.run s.heap
  ⟨r.1,
    if r.2 ≠ 0 then Function.update (Function.update s.live call.block none) r.2 (some call.bytes)
    else if call.bytes = 0 then Function.update s.live call.block none
    else s.live⟩

end Client
end Novino.Libc
