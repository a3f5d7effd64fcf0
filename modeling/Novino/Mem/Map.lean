import Novino.Mem.Brk

/-! The memory mappings of a process (`kernel/mem/map.c`). The list of regions is modelled by its items in order; a
    pointer to a region is a place in this list. Whether `kzalloc` finds memory is left open, as it is for pages. The
    length of a region is at most 2^64 - PAGE_SIZE, so that an offset into it does not wrap. -/

namespace Novino.Mem

def EINVAL : Int := 24

def MAP_FREE : Nat := 1 <<< 0
def MAP_STACK : Nat := 1 <<< 1
def MAP_DIRECT : Nat := 1 <<< 2
def MAP_UC : Nat := 1 <<< 3
def MAP_WC : Nat := 1 <<< 4
def MAP_EXEC : Nat := 1 <<< 5
def MAP_READONLY : Nat := 1 <<< 6

def has (flags flag : Nat) : Bool := flags &&& flag != 0

def pageAlign (a : Nat) : Nat := alignDown ((a + (PAGE_SIZE - 1)) % 2 ^ 64)

/-- `mm_region_t`. -/
structure Region where
  flags : Nat
  addr : Nat
  phys : Nat
  length : Nat
deriving DecidableEq, Repr

def Region.virt (r : Region) (offset : Nat) : Nat := (r.addr + offset) % 2 ^ 64

structure Place where
  before : List Region
  region : Region
  after : List Region
deriving Repr

def Place.all (f : Place) : List Region := f.before ++ f.region :: f.after

/-- The mappings of a process and what they are made of; `heap n` says whether request number `n` for a region record
    is granted. -/
structure Space where
  regions : List Region
  pages : PageMap
  heap : Nat → Bool
  taken : Nat
  fault : Bool

def findFreeLoop (length : Nat) : (before after : List Region) → (best : Option Place) → Option Place
  | _, [], best => best
  | before, item :: after, best =>
    let next :=
      if !has item.flags MAP_FREE then best
      else if item.length < length then best
      else
        match best with
        | some b => if item.length < b.region.length then some ⟨before, item, after⟩ else best
        | none => some ⟨before, item, after⟩
    findFreeLoop length (before ++ [item]) after next

def findFreeRegion (map : List Region) (length : Nat) : Option Place := findFreeLoop length [] map none

def findRegionLoop (addr : Nat) : (before after : List Region) → Option Place
  | _, [] => none
  | before, item :: after =>
    if item.addr ≤ addr ∧ addr < (item.addr + item.length) % 2 ^ 64 then some ⟨before, item, after⟩
    else findRegionLoop addr (before ++ [item]) after

def findRegion (map : List Region) (addr : Nat) : Option Place := findRegionLoop addr [] map

variable (m : PageMap)

def setModes (flags addr : Nat) : PageMap :=
  let c :=
    if has flags MAP_UC then m.vmmSetCaching addr PAT_UC
    else if has flags MAP_WC then m.vmmSetCaching addr PAT_WC
    else m
  c.vmmSetMode addr (!has flags MAP_READONLY) (has flags MAP_EXEC)

/-- The loop over the pages of a region, that `map_region` and `allocate_region` share. False when it does not reach the
end. -/
def enterLoop (enter : PageMap → Nat → Nat → PageMap × Bool) (r : Region) :
    Nat → (offset : Nat) → PageMap → PageMap × Bool
  | 0, _, m => (m, true)
  | n + 1, offset, m =>
    let e := enter m (r.virt offset) offset
    if e.2 then enterLoop enter r n (offset + PAGE_SIZE) (setModes e.1 r.flags (r.virt offset)) else (e.1, false)

def mapRegion (r : Region) : PageMap × Bool :=
  enterLoop (fun m addr offset => m.vmmMapPage addr ((r.phys + offset) % 2 ^ 64)) r (Process.pagesIn r.length) 0 m

def allocateRegion (r : Region) : PageMap × Bool :=
  enterLoop (fun m addr _ => m.vmmAllocPage addr) r (Process.pagesIn r.length) 0 m

def unmapLoop (r : Region) : Nat → (offset : Nat) → PageMap → PageMap × Bool
  | 0, _, m => (m, true)
  | n + 1, offset, m =>
    let e := m.vmmFreePage (r.virt offset)
    if e.2 then unmapLoop r n (offset + PAGE_SIZE) e.1 else (e.1, false)

def unmapRegion (r : Region) : PageMap × Bool := unmapLoop r (Process.pagesIn r.length) 0 m

namespace Space

variable (s : Space)

def write (f : Place) (r : Region) : Space := { s with regions := { f with region := r }.all }

def withPages (m : PageMap) : Space := { s with pages := m }

/-- `split_region` on the region at a place: the place after it, and whether it succeeds. -/
def splitRegion (f : Place) (length : Nat) : Space × Place × Bool :=
  if f.region.length - length < PAGE_SIZE then (s, f, true)
  else
    let s' := { s with taken := s.taken + 1 }
    -- `kzalloc` clears the memory that it gets, also at address zero: its caller does not see that there is none.
    if !s.heap s.taken then ({ s' with fault := true }, f, false)
    else
      let new : Region := ⟨MAP_FREE, (f.region.addr + length) % 2 ^ 64, 0, f.region.length - length⟩
      let g : Place := ⟨f.before, { f.region with flags := 0, length := length }, new :: f.after⟩
      (s'.write g g.region, g, true)

def mmMap (length flags : Nat) : Space × Except Int Nat :=
  let length := pageAlign length
  match findFreeRegion s.regions length with
  | none => (s, .error (-ENOMEM))
  | some f =>
    let c := s.splitRegion f length
    if !c.2.2 then (c.1, .error (-ENOMEM))
    else
      let r := c.2.1.region
      let a := allocateRegion c.1.pages r
      if !a.2 then (c.1.withPages a.1, .error (-1))
      else ((c.1.withPages a.1).write c.2.1 { r with flags := flags }, .ok r.addr)

def mmUnmap (virt : Nat) : Space × Except Int Unit :=
  match findRegion s.regions virt with
  | none => (s, .error (-EINVAL))
  | some f =>
    let u := unmapRegion s.pages f.region
    if !u.2 then (s.withPages u.1, .error (-1))
    else ((s.withPages u.1).write f { f.region with flags := MAP_FREE }, .ok ())

def mmMapDirect (phys length flags : Nat) : Space × Except Int Nat :=
  let length := pageAlign length
  match findFreeRegion s.regions length with
  | none => (s, .error (-ENOMEM))
  | some f =>
    let c := s.splitRegion f length
    if !c.2.2 then (c.1, .error (-ENOMEM))
    else
      let r := { c.2.1.region with phys := phys, flags := flags ||| MAP_DIRECT }
      let w := c.1.write c.2.1 r
      let a := mapRegion w.pages r
      (w.withPages a.1, if !a.2 then .error (-1) else .ok r.addr)

/-- `mm_init`, when it finds memory for the record. -/
def mmInit (addr length : Nat) (pages : PageMap) (heap : Nat → Bool) : Space :=
  ⟨[⟨MAP_FREE, addr, 0, length⟩], pages, heap, 0, false⟩

end Space

/-- The calls of `map.c`: `mm_map`, `mm_map_direct` and `mm_unmap`. -/
inductive MapOp where
  | map (length flags : Nat)
  | mapDirect (phys length flags : Nat)
  | unmap (virt : Nat)
deriving DecidableEq, Repr

def Space.run (s : Space) : MapOp → Space × Bool
  | .map length flags => ((s.mmMap length flags).1, (s.mmMap length flags).2.isOk)
  | .mapDirect phys length flags => ((s.mmMapDirect phys length flags).1, (s.mmMapDirect phys length flags).2.isOk)
  | .unmap virt => ((s.mmUnmap virt).1, (s.mmUnmap virt).2.isOk)

end Novino.Mem
