import Novino.Lib.Bits

/-! The data of the ext2 driver (`kernel/vfs/ext2.c`, `kernel/vfs/ext2.h`). The structures on disk (group descriptors,
    inodes, directory records) are read and written through their byte offsets in the packed structures. A pointer into
    a cached block is the pair of the block number and the offset in it. -/

namespace Novino.Ext2

def ENOENT : Int := 5
def ENOTEMPTY : Int := 8
def ENOSPC : Int := 12
def ENOMEM : Int := 23
def EIO : Int := 26

def I_FILE : Nat := 0x01
def I_DIR : Nat := 0x02
def I_SYMLINK : Nat := 0x10

def REQ_DIRENT_TYPE : Nat := 0x02

/-- The fields of the superblock that no operation changes, with what mounting a volume relies on. -/
structure Superblock where
  totalBlocks : Nat
  firstDataBlock : Nat
  logBlockSize : Nat
  blocksPerGroup : Nat
  inodesPerGroup : Nat
  inodeSize : Nat
  featuresRequired : Nat
  /-- The block sizes of the format are 1 KiB to 64 KiB. -/
  log_le : logBlockSize ≤ 6
  first_lt : firstDataBlock < 2 ^ 32
  blocks_pos : 0 < blocksPerGroup
  inodes_pos : 0 < inodesPerGroup
  inodeSize_ge : 128 ≤ inodeSize
  /-- Inodes do not straddle blocks. -/
  inodeSize_dvd : inodeSize ∣ 1024 * 2 ^ logBlockSize
  /-- Offsets in the inode table of a group are 32-bit numbers. -/
  table_le : inodesPerGroup * inodeSize ≤ 2 ^ 32

namespace Superblock
variable (sb : Superblock)

/-! What `ext2fs_mount` derives from the superblock. -/

def blockSize : Nat := 1024 * 2 ^ sb.logBlockSize
def sectorsPerBlock : Nat := sb.blockSize / 512
def bgdsTotal : Nat := (sb.totalBlocks + sb.blocksPerGroup - 1) % 2 ^ 32 / sb.blocksPerGroup
def bgdsPerBlock : Nat := sb.blockSize / 32
def bgdsStart : Nat := if sb.logBlockSize = 0 then 2 else 1

def singly : Nat := sb.blockSize / 4

end Superblock

structure Blk where
  block : Nat
  dirty : Bool
  ready : Bool
  data : Block

/-- The list of cached blocks of a context, in increasing order of their numbers. -/
structure Cache where
  items : List Blk
  sorted : items.Pairwise (·.block < ·.block)

structure Addr where
  block : Nat
  off : Nat
  deriving DecidableEq, Repr

/-- Directory iterator (`ext2_iter_t`). The record pointer is an offset in the data of the current block. -/
structure Iter where
  offset : Nat
  count : Nat
  block : Nat
  ptr : Option Nat
  ip : Addr

/-- Distribution of indirect blocks (`ext2_ibd_t`). -/
structure Ibd where
  ns : Nat := 0
  nd : Nat := 0
  nds : Nat := 0
  nt : Nat := 0
  ntd : Nat := 0
  nts : Nat := 0
  inum : Nat := 0
  dnum : Nat := 0
  deriving DecidableEq, Repr

/-- Walking of inode blocks (`ext2_ibw_t`). -/
structure Ibw where
  create : Bool
  dbNext : Nat := 0
  dbCount : Nat := 0
  ibNext : Nat := 0
  ibCount : Nat := 0
  deriving DecidableEq, Repr

/-- The fields of `inode_t` that a file system fills. -/
structure VInode where
  ino : Nat
  flags : Nat
  mode : Nat
  links : Nat
  uid : Nat
  gid : Nat
  size : Nat
  blocks : Nat
  blksz : Nat
  atime : Nat
  mtime : Nat
  ctime : Nat
  deriving DecidableEq, Repr

def VInode.isDir (ip : VInode) : Bool := ip.flags &&& I_DIR != 0

/-- A mounted volume with the context of the operation that runs on it. The device and the heap may fail: `io n` is the
status of the `n`-th access and `mem n` tells whether the `n`-th allocation succeeds. `oob` records an access outside a
buffer, `hang` that a loop does not end. -/
structure State where
  sb : Superblock
  freeBlocks : Nat
  freeInodes : Nat
  disk : Nat → Block
  io : Nat → Int
  mem : Nat → Bool
  ios : Nat
  mems : Nat
  now : Nat
  list : Cache
  errno : Int
  ptrLinks : List Nat
  ptrIdent : Nat
  ptrIndex : Nat
  ptrBlock : Nat
  ptrData : Option Nat
  iter : Iter
  blkbuf : Block
  oob : Bool
  hang : Bool

/-! ### 32-bit and 64-bit counters -/

def sub32 (a b : Nat) : Nat := (a + (2 ^ 32 - b % 2 ^ 32)) % 2 ^ 32
def add32 (a b : Nat) : Nat := (a + b) % 2 ^ 32
def dec64 (a : Nat) : Nat := (a + (2 ^ 64 - 1)) % 2 ^ 64

def align4 (n : Nat) : Nat := (n + 3) / 4 * 4

/-! ### The cache -/

/-- The search of `ext2_lookup_cached`: the list is sorted, so it stops at the first larger number. -/
def find : List Blk → Nat → Option Blk
  | [], _ => none
  | x :: xs, b => if x.block = b then some x else if b < x.block then none else find xs b

def place : List Blk → Blk → List Blk
  | [], y => [y]
  | x :: xs, y => if x.block = y.block then y :: xs else if y.block < x.block then y :: x :: xs else x :: place xs y

theorem mem_place {xs : List Blk} {y x : Blk} (h : x ∈ place xs y) : x = y ∨ x ∈ xs := by
  induction xs with
  | nil => simpa [place] using h
  | cons z zs ih =>
    unfold place at h
    split at h
    · rcases List.mem_cons.mp h with rfl | h
      · exact .inl rfl
      · exact .inr (List.mem_cons_of_mem _ h)
    · split at h
      · rcases List.mem_cons.mp h with rfl | h
        · exact .inl rfl
        · exact .inr h
      · rcases List.mem_cons.mp h with rfl | h
        · exact .inr List.mem_cons_self
        · exact (ih h).imp_right (List.mem_cons_of_mem _)

theorem sorted_place {xs : List Blk} (y : Blk) (h : xs.Pairwise (·.block < ·.block)) :
    (place xs y).Pairwise (·.block < ·.block) := by
  induction xs with
  | nil => simp [place]
  | cons z zs ih =>
    obtain ⟨hz, hzs⟩ := List.pairwise_cons.mp h
    unfold place
    split
    · rename_i heq
      exact List.pairwise_cons.mpr ⟨fun x hx => heq ▸ hz x hx, hzs⟩
    · split
      · rename_i hlt
        refine List.pairwise_cons.mpr ⟨fun x hx => ?_, h⟩
        rcases List.mem_cons.mp hx with rfl | hx
        · exact hlt
        · exact Nat.lt_trans hlt (hz x hx)
      · refine List.pairwise_cons.mpr ⟨fun x hx => ?_, ih hzs⟩
        rcases mem_place hx with rfl | hx
        · omega
        · exact hz x hx

namespace Cache

def empty : Cache := ⟨[], List.Pairwise.nil⟩
def find (c : Cache) (b : Nat) : Option Blk := Ext2.find c.items b
def put (c : Cache) (y : Blk) : Cache := ⟨place c.items y, sorted_place y c.sorted⟩

end Cache

namespace State
variable (s : State)

def bound (ok : Bool) : State := if ok then s else { s with oob := true }

def data (b : Nat) : Block := ((s.list.find b).map (·.data)).getD Block.zero

/-- A store through a pointer into cached block `b`. Without such a block the pointer is not valid. -/
def poke (b : Nat) (f : Block → Block) : State :=
  match s.list.find b with
  | some item => { s with list := s.list.put { item with data := f item.data } }
  | none => { s with oob := true }

def u8 (a : Addr) (o : Nat) : Nat := (s.data a.block).rd8 (a.off + o)
def u16 (a : Addr) (o : Nat) : Nat := (s.data a.block).rd16 (a.off + o)
def u32 (a : Addr) (o : Nat) : Nat := (s.data a.block).rd32 (a.off + o)

def set8 (a : Addr) (o v : Nat) : State := s.poke a.block (·.wr8 (a.off + o) v)
def set16 (a : Addr) (o v : Nat) : State := s.poke a.block (·.wr16 (a.off + o) v)
def set32 (a : Addr) (o v : Nat) : State := s.poke a.block (·.wr32 (a.off + o) v)

end State

/-! ### Field offsets -/

namespace Bgd
def blockBitmap : Nat := 0
def inodeBitmap : Nat := 4
def inodeTable : Nat := 8
def freeBlocks : Nat := 12
def freeInodes : Nat := 14
end Bgd

namespace Inode
def mode : Nat := 0
def uid : Nat := 2
def size : Nat := 4
def atime : Nat := 8
def ctime : Nat := 12
def mtime : Nat := 16
def dtime : Nat := 20
def gid : Nat := 24
def links : Nat := 26
def sectors : Nat := 28
def block (i : Nat) : Nat := 40 + 4 * i
end Inode

namespace Dentry
def inode : Nat := 0
def size : Nat := 4
def length : Nat := 6
def type : Nat := 7
def name : Nat := 8
end Dentry

end Novino.Ext2
