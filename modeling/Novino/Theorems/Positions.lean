import Novino.Vfs.Calls
import Novino.Vfs.Ext2fs
import Novino.Lib.Steps
import Novino.Theorems.Blocks

/-! The size that `vfs_read` passes to the file system, and the positions of the open files of which it depends. -/

namespace Novino.Vfs
open Steps
open Ext2 (Name I_FILE oneGroup)

section Call
variable {Φ : Type} {s : State Φ} {p id size f : Nat}

end Call

/-! ### A truncated file -/

def ext2Name : Name := [0x65, 0x78, 0x74, 0x32]
def mountName : Name := [0x6D]
end Novino.Vfs
