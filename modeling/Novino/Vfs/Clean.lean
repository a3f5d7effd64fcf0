import Mathlib.Data.List.TakeWhile
import Novino.Vfs.Walk

/-! Paths as text: cleaning one (`vfs_clean_path`), reading it component by component (`vfs_new_path`,
    `vfs_read_path`), and the path of the working directory (`vfs_getcwd`). Strings are lists of bytes without their
    final NUL. -/

namespace Novino.Vfs
open Ext2 (Name)

def slash : Byte := 0x2F

/-- The variables of `vfs_clean_path` between two components: the text, the number of components in it, and the flag
`dotdot`. `most` is the largest number of characters that the text has had. -/
structure Cleaner where
  dest : List Byte := []
  depth : Nat := 0
  dotdot : Bool := false
  most : Nat := 0
  deriving DecidableEq, Repr

variable (dest path : List Byte)

def dropName : List Byte := (dest.reverse.dropWhile (· != slash)).tail.reverse

def lastName : Name := (dest.reverse.takeWhile (· != slash)).reverse

theorem not_slash {name : Name} (h : slash ∉ name) : ∀ b ∈ name.reverse, (b != slash) = true := by
  intro b hb
  simp only [bne_iff_ne, ne_eq]
  rintro rfl
  exact h (List.mem_reverse.mp hb)

theorem dropName_append {name : Name} (h : slash ∉ name) :
    dropName (dest ++ slash :: name) = dest := by
  rw [dropName, List.reverse_append, List.reverse_cons, List.append_assoc, List.dropWhile_append_of_pos (not_slash h)]
  simp

theorem lastName_append {name : Name} (h : slash ∉ name) :
    lastName (dest ++ slash :: name) = name := by
  rw [lastName, List.reverse_append, List.reverse_cons, List.append_assoc, List.takeWhile_append_of_pos (not_slash h)]
  simp

theorem lastName_self {name : Name} (h : slash ∉ name) : lastName name = name := by
  rw [lastName, List.takeWhile_eq_self_iff.mpr (not_slash h), List.reverse_reverse]

namespace Cleaner
variable (c : Cleaner)

/-- The body of the loop at the end of a component. -/
def component (name : Name) : Cleaner :=
  let prev := c.dotdot
  let c := { c with dotdot := name == Vfs.dotdot }
  if c.dotdot && c.depth != 0 && !prev then
    let dest := dropName c.dest
    let depth := c.depth - 1
    -- need to check if previous entry was ..
    { c with dest, depth, dotdot := depth != 0 && lastName dest == Vfs.dotdot }
  else if name ≠ dot ∧ name ≠ [] then
    let dest := c.dest ++ slash :: name
    { c with dest, depth := c.depth + 1, most := max c.most dest.length }
  else c

/-- The loop over the characters; `name` is what was read of the current component. -/
def loop (c : Cleaner) (name : Name) : List Byte → Cleaner
  | [] => c.component name
  | b :: path => if b = slash then loop (c.component name) [] path else loop c (name ++ [b]) path

end Cleaner

/-- `vfs_clean_path` with its counts; a leading slash is passed over. -/
def cleaner : Cleaner :=
  let c := Cleaner.loop {} [] (if path.head? = some slash then path.tail else path)
  if c.depth = 0 then { c with dest := c.dest ++ [slash], most := max c.most (c.dest.length + 1) } else c

def vfsCleanPath : List Byte × Nat := ((cleaner path).dest, (cleaner path).depth)

/-- `vfs_new_path`, with the components that `vfs_read_path` then finds in the clean path. -/
def vfsNewPath : Path where
  absolute := path.head? = some slash
  names := ((vfsCleanPath path).1.splitOn slash).filter (· ≠ [])

/-! ### The working directory -/

def ERANGE : Int := 15

/-- What `vfs_getcwd` does: its status, the text, and the number of bytes of the buffer that were written, with the NUL.
-/
structure Cwd where
  status : Int
  text : List Byte
  most : Nat
  deriving DecidableEq, Repr

/-- One round of the loop of `vfs_getcwd`: the name backwards and a slash. The room is compared with each name, and
    stays the same. -/
def putName (room : Nat) (buf : List Byte) (name : Name) : Except Cwd (List Byte) :=
  if room < name.length then .error ⟨-ERANGE, buf, if buf = [] then 0 else buf.length + 1⟩
  else .ok (buf ++ (name.reverse ++ [slash]))

namespace State
variable {Φ : Type} (s : State Φ)

/-- The loop of `vfs_getcwd` up to the root, and the reversal behind it; none when the root is not met within the given
    number of rounds. -/
def getcwdLoop (room : Nat) : Nat → Nat → List Byte → Option Cwd
  | 0, _, _ => none
  | n + 1, dp, buf =>
    if dp = root then some ⟨0, buf.reverse, buf.length + 1⟩
    else
      match putName room buf (s.dentry dp).name with
      | .error cwd => some cwd
      | .ok buf => getcwdLoop room n (s.dentry dp).parent buf

/-- `vfs_getcwd`, called by process `p`. The loop ends within `fresh + 1` rounds unless the tree has a cycle. -/
def vfsGetcwd (p : Nat) (size : Int) : Option Cwd :=
  if size = 0 then some ⟨-EINVAL, [], 0⟩
  else if size < 2 then some ⟨-ERANGE, [], 0⟩
  else if (s.proc p).cwd = root then some ⟨0, [slash], 2⟩
  else s.getcwdLoop (size - 2).toNat (s.fresh + 1) (s.proc p).cwd []

end State

end Novino.Vfs
