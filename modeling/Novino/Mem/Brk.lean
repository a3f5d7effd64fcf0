import Novino.Mem.Pages
import Novino.Mem.Pmm

/-! The break of a process (`sys_brk` in `kernel/syscalls/syscalls.c`). -/

namespace Novino.Mem

def ENOMEM : Int := 23
def EFAULT : Int := 34
def USER_MMAP : Nat := 0x200000000000

/-- The area of the program break: its start, its present end and its limit. -/
structure Process where
  start : Nat
  fin : Nat
  max : Nat
  pages : PageMap

namespace Process

variable (p : Process)

/-- The loop of `sys_brk` that grows the segment by the given number of pages; false when a page is missing. -/
def growLoop (p : Process) : Nat → Process × Bool
  | 0 => (p, true)
  | n + 1 =>
    let r := p.pages.vmmAllocPage p.fin
    if r.2 then growLoop { p with fin := p.fin + PAGE_SIZE, pages := r.1 } n else ({ p with pages := r.1 }, false)

def shrinkLoop (p : Process) : Nat → Process × Bool
  | 0 => (p, true)
  | n + 1 =>
    let fin := p.fin - PAGE_SIZE
    let r := p.pages.vmmFreePage fin
    let q := { p with fin := fin, pages := r.1 }
    if r.2 then shrinkLoop q n else (q, false)

def pagesIn (size : Nat) : Nat := (size + (PAGE_SIZE - 1)) / PAGE_SIZE

def sysBrk (brk : Nat) : Process × Except Int Nat :=
  if brk = 0 then (p, .ok p.fin)
  else
    let brk := alignUp brk
    if brk = p.fin then (p, .ok p.fin)
    else if brk < p.start then (p, .error (-EFAULT))
    else if p.max < brk then (p, .error (-EFAULT))
    else
      let r := if p.fin < brk then p.growLoop (pagesIn (brk - p.fin)) else p.shrinkLoop (pagesIn (p.fin - brk))
      (r.1, if r.2 then .ok r.1.fin else .error (-ENOMEM))

end Process
end Novino.Mem
