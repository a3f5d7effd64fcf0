import Mathlib.Logic.Function.Basic

/-! The pages of the current address space, as `kernel/mem/vmm.c` changes them: a partial map from the addresses of
    pages. Whether memory is found is left open: `grants n` is what request number `n` gets, which stands for all frames
    that a call needs. A page that is not present has the entry that `init_pte` makes. -/

namespace Novino.Mem

def PAT_WB : Nat := 0
def PAT_UC : Nat := 3
def PAT_WC : Nat := 4

structure Page where
  phys : Nat
  /-- Whether `avl` is AVL_ALLOCATED, and not AVL_MAPPED. -/
  allocated : Bool
  /-- The PAT number that `pwt`, `pcd` and `pat` are the bits of. -/
  caching : Nat
  write : Bool
  /-- Whether `nx` is 0. -/
  exec : Bool
deriving DecidableEq, Repr

/-- The pages of an address space, and the frames that the allocator gives out one after another. -/
structure PageMap where
  page : Nat → Option Page
  grants : Nat → Option Nat
  asked : Nat

namespace PageMap

variable (m : PageMap) (virt : Nat)

def set (p : Option Page) : PageMap := { m with page := Function.update m.page virt p }

def ask : PageMap := { m with asked := m.asked + 1 }

def fresh (phys : Nat) (allocated : Bool) : Page := ⟨phys, allocated, PAT_WB, true, false⟩

def vmmAllocPage : PageMap × Bool :=
  if (m.page virt).isSome then (m, false)
  else
    match m.grants m.asked with
    | none => (m.ask, false)
    | some phys => (m.ask.set virt (some (fresh phys true)), true)

def vmmMapPage (phys : Nat) : PageMap × Bool :=
  if (m.page virt).isSome then (m, false)
  else
    match m.grants m.asked with
    | none => (m.ask, false)
    | some _ => (m.ask.set virt (some (fresh phys false)), true)

def vmmFreePage : PageMap × Bool :=
  if (m.page virt).isSome then (m.set virt none, true) else (m, false)

def vmmSetCaching (mode : Nat) : PageMap := m.set virt ((m.page virt).map fun p => { p with caching := mode })

def vmmSetMode (w x : Bool) : PageMap := m.set virt ((m.page virt).map fun p => { p with write := w, exec := x })

end PageMap
end Novino.Mem
