import Mathlib.Tactic.Common

/-! Interrupt vectors (`kernel/x86/irq.c`). Vectors 48 to 239 are given to the lines of the interrupt controllers
    (GSIs) and to devices that send their interrupts as messages (MSI). What is written to the interrupt descriptor
    table and to the I/O APIC is left out. -/

namespace Novino.X86

def EBUSY : Int := 3
def ENXIO : Int := 4
def ENOSPC : Int := 12
def EFAIL : Int := 22
def ENOMEM : Int := 23
def EINVAL : Int := 24

structure Gsi where
  vector : Nat := 0
  present : Bool := false
deriving DecidableEq, Repr

/-- `irq_t`. The handlers are given by their data. -/
structure Irq where
  free : Bool := true
  apicId : Nat := 0
  gsi : Option Nat := none
  handlers : List Nat := []
deriving DecidableEq, Repr

/-- The two tables. Item `i` of `irq_data` is the one of vector `48 + i`. -/
structure Irqs where
  gsiMax : Nat
  gsiData : Nat → Gsi
  irqData : Nat → Irq

def irqMax : Nat := 192

namespace Irqs

variable (s : Irqs) (vector : Int) (i : Nat) (apic : Nat → Nat)

def getIrqItem : Option Nat := if 48 ≤ vector ∧ vector ≤ 239 then some (vector - 48).toNat else none

def getGsiItem (gsi : Int) : Option Nat := if 0 ≤ gsi ∧ gsi < s.gsiMax then some gsi.toNat else none

def setIrq (irq : Irq) : Irqs := { s with irqData := Function.update s.irqData i irq }

def setGsi (g : Nat) (gsi : Gsi) : Irqs := { s with gsiData := Function.update s.gsiData g gsi }

/-- The search of `irq_allocate` from item `i` on, where `left` items are left. `irq` is the start of the open run and
    `cnt` its length. -/
def search (num : Int) : Nat → Nat → Option Nat → Nat → Option Nat × Nat
  | 0, _, irq, cnt => (irq, cnt)
  | left + 1, i, irq, cnt =>
    if cnt = 0 ∧ (48 + i : Int).tmod num ≠ 0 then search num left (i + 1) irq cnt
    else if (s.irqData i).free then
      let irq := irq.or (some i)
      if (cnt + 1 : Int) = num then (irq, cnt + 1) else search num left (i + 1) irq (cnt + 1)
    else search num left (i + 1) none 0

/-- The loop that takes `cnt` items from `i` on. `smp_core_apic_id` is a parameter. -/
def take (apic : Nat → Nat) : Irqs → Nat → Nat → Irqs
  | s, _, 0 => s
  | s, i, cnt + 1 => take apic (s.setIrq i { s.irqData i with apicId := apic (48 + i), free := false }) (i + 1) cnt

/-- `irq_allocate`. There is no result where the remainder by 0 stops the processor. -/
def irqAllocate (num : Int) : Option (Irqs × Option Nat) :=
  if num = 0 then none
  else
    match s.search num irqMax 0 none 0 with
    | (irq, cnt) =>
      if (cnt : Int) < num then some (s, none)
      else
        match irq with
        | none => some (s, none)
        | some i => some (s.take apic i cnt, some i)

def link (g : Nat) : Irqs :=
  (s.setIrq i { s.irqData i with gsi := some g }).setGsi g { s.gsiData g with vector := 48 + i }

def irqAllocGsiVector (id : Int) : Option (Irqs × Int) :=
  match s.getGsiItem id with
  | none => some (s, - ENXIO)
  | some g =>
    if !(s.gsiData g).present then some (s, - ENXIO)
    else if (s.gsiData g).vector ≠ 0 then some (s, (s.gsiData g).vector)
    else
      match s.irqAllocate apic 1 with
      | none => none
      | some (s, none) => some (s, -ENOSPC)
      | some (s, some i) => some (s.link i g, 48 + i)

def irqAllocMsiVectors (num : BitVec 32) : Option (Irqs × Int) :=
  if num &&& (num - 1) ≠ 0 then some (s, -EINVAL)
  else
    match s.irqAllocate apic num.toInt with
    | none => none
    | some (s, none) => some (s, -ENOSPC)
    | some (s, some i) => some (s, 48 + i)

def unlink : Irqs :=
  match (s.irqData i).gsi with
  | none => s
  | some g => (s.setGsi g { s.gsiData g with vector := 0 }).setIrq i { s.irqData i with gsi := none }

def irqFreeVector : Irqs × Int :=
  match getIrqItem vector with
  | none => (s, -EINVAL)
  | some i =>
    if 0 < (s.irqData i).handlers.length then (s, -EBUSY)
    else
      let s := s.unlink i
      (s.setIrq i { s.irqData i with free := true }, 0)

/-- `irq_request`. `mem` says whether `kzalloc` gives memory. -/
def irqRequest (mem : Bool) (data : Nat) : Irqs × Int :=
  match getIrqItem vector with
  | none => (s, -EINVAL)
  | some i =>
    if (s.irqData i).free then (s, -EINVAL)
    else if !mem then (s, -ENOMEM)
    else (s.setIrq i { s.irqData i with handlers := (s.irqData i).handlers ++ [data] }, 0)

def irqFree (data : Nat) : Irqs × Int :=
  match getIrqItem vector with
  | none => (s, -EINVAL)
  | some i =>
    if (s.irqData i).free then (s, -EINVAL)
    else if data = 0 then (s, -EINVAL)
    else if data ∉ (s.irqData i).handlers then (s, -EFAIL)
    else (s.setIrq i { s.irqData i with handlers := (s.irqData i).handlers.erase data }, 0)

def init (gsiMax : Nat) (present : Nat → Bool) : Irqs where
  gsiMax
  gsiData g := { present := present g }
  irqData _ := {}

end Irqs

/-- The calls of `irq.c` that give out, take back and bind vectors. -/
inductive IrqOp
  | gsi (apic : Nat → Nat) (id : Int)
  | msi (apic : Nat → Nat) (num : BitVec 32)
  | free (vector : Int)
  | request (vector : Int) (mem : Bool) (data : Nat)
  | remove (vector : Int) (data : Nat)

def Irqs.call (s : Irqs) : IrqOp → Option (Irqs × Int)
  | .gsi apic id => s.irqAllocGsiVector apic id
  | .msi apic num => s.irqAllocMsiVectors apic num
  | .free vector => some (s.irqFreeVector vector)
  | .request vector mem data => some (s.irqRequest vector mem data)
  | .remove vector data => some (s.irqFree vector data)

end Novino.X86
