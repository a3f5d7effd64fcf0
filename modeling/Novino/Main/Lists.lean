import Mathlib.Algebra.Group.Nat.Defs
import Mathlib.Logic.Function.Basic

/-! The kernel's doubly linked lists (`kernel/main/lists.c`). An item holds its own link at a fixed offset; the list
    header names the first and the last item. Items are addresses and 0 is the null pointer. Each function holds the
    list's lock from its first to its last access, so that a call is one step. -/

namespace Novino.Main

@[ext] structure ListLink where
  prev : Nat
  next : Nat
deriving DecidableEq, Repr

abbrev Links := Nat → ListLink

namespace Links

def setPrev (mem : Links) (a v : Nat) : Links := Function.update mem a ⟨v, (mem a).next⟩

def setNext (mem : Links) (a v : Nat) : Links := Function.update mem a ⟨(mem a).prev, v⟩

end Links

/-- `list_t`; `length` is a 32-bit number. -/
structure KList where
  length : Nat
  offset : Nat
  head : Nat
  tail : Nat
deriving DecidableEq, Repr

open Links

def listInit (offset : Nat) : KList := ⟨0, offset, 0, 0⟩

def incr32 (n : Nat) : Nat := (n + 1) % 2 ^ 32

def decr32 (n : Nat) : Nat := (n + (2 ^ 32 - 1)) % 2 ^ 32

section
variable (mem : Links) (list : KList) (item : Nat)

def listInsert : Links × KList :=
  let link := item + list.offset
  let mem := setNext mem link list.head
  let mem := setPrev mem link 0
  let next := (mem link).next
  (if next ≠ 0 then setPrev mem (next + list.offset) item else mem,
    { list with
      head := item
      length := incr32 list.length
      tail := if list.tail = 0 then item else list.tail })

def listInsertAfter (head item : Nat) : Links × KList :=
  let link := item + list.offset
  let prev := head + list.offset
  let mem := setPrev mem link head
  let mem := setNext mem link (mem prev).next
  let mem := setNext mem prev item
  let next := (mem link).next
  (if next ≠ 0 then setPrev mem (next + list.offset) item else mem,
    { list with
      length := incr32 list.length
      tail := if list.tail = head then item else list.tail })

def listInsertBefore (head item : Nat) : Links × KList :=
  let link := item + list.offset
  let next := head + list.offset
  let mem := setPrev mem link (mem next).prev
  let mem := setNext mem link head
  let mem := setPrev mem next item
  let prev := (mem link).prev
  (if prev ≠ 0 then setNext mem (prev + list.offset) item else mem,
    { list with
      length := incr32 list.length
      head := if list.head = head then item else list.head })

def listAppend : Links × KList :=
  let link := item + list.offset
  let mem := setPrev mem link list.tail
  let mem := setNext mem link 0
  let prev := (mem link).prev
  (if prev ≠ 0 then setNext mem (prev + list.offset) item else mem,
    { list with
      tail := item
      length := incr32 list.length
      head := if list.head = 0 then item else list.head })

/-- The first half of `list_remove`: the neighbours of the item are linked to each other. -/
def listBypass : Links :=
  let link := item + list.offset
  let prev := (mem link).prev
  let mem := if prev ≠ 0 then setNext mem (prev + list.offset) (mem link).next else mem
  let next := (mem link).next
  if next ≠ 0 then setPrev mem (next + list.offset) (mem link).prev else mem

/-- `list_remove`; the last component is its `status`. Whether the item is in the list is judged by the header and
    by the item's own link. -/
def listRemove : Links × KList × Bool :=
  let link := item + list.offset
  if list.head = item ∨ list.tail = item ∨ (mem link).prev ≠ 0 ∨ (mem link).next ≠ 0 then
    (Function.update (listBypass mem list item) link ⟨0, 0⟩,
      { list with
        head := if list.head = item then (mem link).next else list.head
        tail := if list.tail = item then (mem link).prev else list.tail
        length := decr32 list.length }, true)
  else (mem, list, false)

def listPop : Links × KList × Nat :=
  let item := list.head
  if item ≠ 0 then
    let link := item + list.offset
    let next := (mem link).next
    (Function.update (if next ≠ 0 then setPrev mem (next + list.offset) 0 else mem) link ⟨0, 0⟩,
      { list with
        head := next
        tail := if next ≠ 0 then list.tail else 0
        length := decr32 list.length }, item)
  else (mem, list, 0)

def listIterate : Nat := if item = 0 then list.head else (mem (item + list.offset)).next

def listIterateReverse : Nat := if item = 0 then list.tail else (mem (item + list.offset)).prev

/-- The items that a loop over the list sees after `item`, at most `n` of them. -/
def itemsAfter : Nat → Nat → List Nat
  | 0, _ => []
  | n + 1, item =>
    let i := listIterate mem list item
    if i = 0 then [] else i :: itemsAfter n i

def itemsBefore : Nat → Nat → List Nat
  | 0, _ => []
  | n + 1, item =>
    let i := listIterateReverse mem list item
    if i = 0 then [] else i :: itemsBefore n i

end

/-- The calls of `lists.c` that change a list, with the address of the item. -/
inductive ListOp
  | insert (item : Nat)
  | append (item : Nat)
  | insertAfter (head item : Nat)
  | insertBefore (head item : Nat)
  | remove (item : Nat)
  | pop
deriving DecidableEq, Repr

structure ListState where
  mem : Links
  list : KList

def ListState.step (s : ListState) : ListOp → ListState
  | .insert item => ⟨(listInsert s.mem s.list item).1, (listInsert s.mem s.list item).2⟩
  | .append item => ⟨(listAppend s.mem s.list item).1, (listAppend s.mem s.list item).2⟩
  | .insertAfter head item => ⟨(listInsertAfter s.mem s.list head item).1, (listInsertAfter s.mem s.list head item).2⟩
  | .insertBefore head item =>
    ⟨(listInsertBefore s.mem s.list head item).1, (listInsertBefore s.mem s.list head item).2⟩
  | .remove item => ⟨(listRemove s.mem s.list item).1, (listRemove s.mem s.list item).2.1⟩
  | .pop => ⟨(listPop s.mem s.list).1, (listPop s.mem s.list).2.1⟩

end Novino.Main
