import Novino.X86.Irq

/-! Interrupt vectors of PCI devices (`kernel/pci/msi.c`). What is written to the registers and to the tables of a
    device is left out. -/

namespace Novino.Pci

open X86

/-- `pci_msi_t` and `pci_msix_t`. -/
structure Msi where
  /-- 0 where the device has no such interrupts. -/
  offset : Nat := 0
  size : Nat := 0
deriving DecidableEq, Repr

/-- The fields of `pci_dev_t` for interrupts. There is no `vecs` where the pointer is null. -/
structure PciDev where
  gsi : Int := -1
  msi : Msi := {}
  msix : Msi := {}
  vecs : Option (List Nat) := none
  numvecs : Nat := 0
deriving DecidableEq, Repr

def roundVecs (n : Nat) : Nat :=
  if 16 < n then 32 else if 8 < n then 16 else if 4 < n then 8 else if 2 < n then 4 else n

def limits (dev : PciDev) (minvecs maxvecs : Nat) : Except Int (Nat × Nat) :=
  if dev.msix.offset ≠ 0 then
    if dev.msix.size < minvecs then .error (-ENOSPC) else .ok (minvecs, min maxvecs dev.msix.size)
  else if dev.msi.offset ≠ 0 then
    if dev.msi.size < minvecs then .error (-ENOSPC)
    else .ok (roundVecs minvecs, roundVecs (min maxvecs dev.msi.size))
  else if dev.gsi < 0 ∨ 1 < minvecs then .error (-ENOSPC)
  else .ok (minvecs, 1)

def msixLoop (apic : Nat → Nat) : Nat → Irqs → List Nat → Option (Irqs × List Nat)
  | 0, s, vecs => some (s, vecs)
  | left + 1, s, vecs =>
    match s.irqAllocMsiVectors apic 1 with
    | none => none
    | some (s, vector) => if vector < 0 then some (s, vecs) else msixLoop apic left s (vecs ++ [vector.toNat])

variable (apic : Nat → Nat) (s : Irqs)

def msiVecs (minvecs maxvecs : Nat) : Option (Irqs × List Nat) :=
  match s.irqAllocMsiVectors apic (BitVec.ofNat 32 maxvecs) with
  | none => none
  | some (s, vector) =>
    if vector < 0 then
      match s.irqAllocMsiVectors apic (BitVec.ofNat 32 minvecs) with
      | none => none
      | some (s, vector) => some (s, if 0 < vector then List.range' vector.toNat minvecs else [])
    else some (s, List.range' vector.toNat maxvecs)

def gsiVecs (gsi : Int) : Option (Irqs × List Nat) :=
  match s.irqAllocGsiVector apic gsi with
  | none => none
  | some (s, vector) => some (s, if 0 < vector then [vector.toNat] else [])

def takeVecs (dev : PciDev) (minvecs maxvecs : Nat) : Option (Irqs × List Nat) :=
  if dev.msix.offset ≠ 0 then msixLoop apic maxvecs s []
  else if dev.msi.offset ≠ 0 then msiVecs apic s minvecs maxvecs
  else gsiVecs apic s dev.gsi

def freeVecs (vecs : List Nat) : Irqs := vecs.foldl (fun s (v : Nat) => (s.irqFreeVector v).1) s

/-- `pci_alloc_irq_vectors`. `mem` says whether `kcalloc` has memory: it clears a null pointer otherwise, and there is
    no result. The array `vecs` has `maxvecs` items, which are zero at first. -/
def pciAllocIrqVectors (mem : Bool) (s : Irqs) (dev : PciDev) (minvecs maxvecs : Nat) :
    Option (Irqs × PciDev × Int) :=
  if dev.vecs.isSome then some (s, dev, -EBUSY)
  else if minvecs = 0 then some (s, dev, -EINVAL)
  else if maxvecs < minvecs then some (s, dev, -EINVAL)
  else
    match limits dev minvecs maxvecs with
    | .error e => some (s, dev, e)
    | .ok (minvecs, maxvecs) =>
      if !mem then none
      else
        match takeVecs apic s dev minvecs maxvecs with
        | none => none
        | some (s, vecs) =>
          if vecs.length < minvecs then some (freeVecs s vecs, dev, -ENOSPC)
          else
            some (s, { dev with vecs := some (vecs ++ List.replicate (maxvecs - vecs.length) 0), numvecs :=
              vecs.length },
              vecs.length)

def pciFreeIrqVectors (dev : PciDev) : Irqs × PciDev :=
  if dev.numvecs = 0 then (s, dev)
  else (freeVecs s ((dev.vecs.getD []).take dev.numvecs), { dev with vecs := none, numvecs := 0 })

/-- `pci_irq_vector`. There is no result where the item that is read lies behind the array. -/
def pciIrqVector (dev : PciDev) (num : Nat) : Option Int :=
  if dev.numvecs < num then some (-EINVAL) else (dev.vecs.getD [])[num]?.map (↑)

end Novino.Pci
