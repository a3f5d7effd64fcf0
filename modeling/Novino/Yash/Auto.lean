import Novino.Libc.Strings

/-! Completion of names in the shell (`list_sort` and `autocomplete` in `apps/yash/auto.c`). A name is the string
without
    its NUL. -/

namespace Novino.Yash

open Libc

structure Dirent where
  name : List Byte
  dir : Bool
  deriving DecidableEq, Repr

/-! ### list_sort -/

def nextGap (gap : Nat) : Nat × Bool :=
  let gap := 10 * gap / 13
  if gap < 1 then (1, true) else if gap = 9 ∨ gap = 10 then (11, false) else (gap, false)

def compareAt (gap : Nat) (s : List Dirent × Bool) (i : Nat) : List Dirent × Bool :=
  match s.1[i]?, s.1[i + gap]? with
  | some a, some b => if strcasecmp a.name b.name > 0 then ((s.1.set i b).set (i + gap) a, false) else s
  | _, _ => s

def pass (gap : Nat) (list : List Dirent) (sorted : Bool) : List Dirent × Bool :=
  (List.range (list.length - gap)).foldl (compareAt gap) (list, sorted)

def sortLoop : Nat → Nat → List Dirent → Option (List Dirent)
  | 0, _, _ => none
  | fuel + 1, gap, list =>
    let next := nextGap gap
    let after := pass next.1 list next.2
    if after.2 then some after.1 else sortLoop fuel next.1 after.1

def listSort (fuel : Nat) (list : List Dirent) : Option (List Dirent) := sortLoop fuel list.length list

/-! ### autocomplete -/

def slash : Byte := 0x2F
def dot : Byte := 0x2E
def space : Byte := 0x20

def Dirent.fits (str : List Byte) (dent : Dirent) : Bool :=
  !((dent.name = [dot] ∨ dent.name = [dot, dot]) ∧ str.head? ≠ some dot) && str.isPrefixOf dent.name

def Dirent.marked (dent : Dirent) : List Byte := dent.name ++ [if dent.dir then slash else space]

/-- The loop that compares the buffer with a further name and ends it where they differ. -/
def common : List Byte → List Byte → List Byte
  | a :: buf, b :: name => if a = b then a :: common buf name else []
  | _, _ => []

/-- The loop over the directory and the result; `none` if the first name does not fit into `match`. -/
def completion (str : List Byte) (entries : List Dirent) : Option (Option (List Byte)) :=
  match entries.filter (·.fits str) with
  | [] => some none
  | first :: more =>
    if 256 < first.marked.length + 1 then none
    else
      let buf := more.foldl (fun buf dent => common buf dent.name) first.marked
      some (if str.length < buf.length then some (buf.drop str.length) else none)

/-- The part of the typed text behind its last slash, and the part before it. -/
def lastPart (str : List Byte) : List Byte := (str.reverse.takeWhile (· != slash)).reverse
def dirPart (str : List Byte) : List Byte := str.take (str.length - (lastPart str).length - 1)

/-- `autocomplete` without suggestions; `none` for an access outside `path` or `match`. -/
def autocomplete (opendir : List Byte → Option (List Dirent)) (str : List Byte) : Option (Option (List Byte)) :=
  if 256 ≤ (dirPart str).length then none
  else
    let path := if dirPart str ≠ [] then dirPart str else if str.head? = some slash then [slash] else [dot]
    match opendir path with
    | none => some none
    | some entries => completion (lastPart str) entries

end Novino.Yash
