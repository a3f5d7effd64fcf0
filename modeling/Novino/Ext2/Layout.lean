import Mathlib.Data.Finset.Card
import Mathlib.Data.Finset.Union
import Novino.Ext2.Types

/-! The layout of the block pointers of an inode. With `s` pointers in a block, the first twelve data blocks hang off
    the inode, the next `s` off one indirect block, the next `s * s` off a doubly indirect block, and the rest off a
    triply indirect one. -/

namespace Novino.Ext2

inductive Node where
  | single
  | double
  /-- The `j`-th block below the doubly indirect block. -/
  | doubleLeaf (j : Nat)
  | triple
  /-- The `m`-th block below the triply indirect block. -/
  | tripleMid (m : Nat)
  /-- The `k`-th block below those. -/
  | tripleLeaf (k : Nat)
  deriving DecidableEq, Repr

/-- The indirect blocks between the inode and data block `i`, from the inode down. -/
def path (s i : Nat) : List Node :=
  if i < 12 then []
  else if i < 12 + s then [.single]
  else if i < 12 + s + s * s then [.double, .doubleLeaf ((i - 12 - s) / s)]
  else [.triple, .tripleMid ((i - 12 - s - s * s) / (s * s)), .tripleLeaf ((i - 12 - s - s * s) / s)]

def indirectNodes (s d : Nat) : Finset Node := (Finset.range d).biUnion fun i => (path s i).toFinset

end Novino.Ext2
