import Novino.Ext2.Context

/-! Block group descriptors and the allocation of blocks: `ext2_bgd_read` to `ext2_blocks_dist`. -/

namespace Novino.Ext2
open State

/-! ### Block group descriptors -/

def Superblock.bgdAddr (sb : Superblock) (bg : Nat) : Addr :=
  ⟨sb.bgdsStart + bg / sb.bgdsPerBlock, 32 * (bg % sb.bgdsPerBlock)⟩

variable (s : State) (cnt : Nat)

def bgdRead (bg : Nat) (dirty : Bool) : State × Option Addr :=
  match readCached s (s.sb.bgdAddr bg).block dirty with
  | (s, false) => (s, none)
  | (s, true) => (s, some (s.sb.bgdAddr bg))

/-- The loop of `ext2_bgd_search` over `n` groups from `i` on, with the fullest group found so far. -/
def bgdSearchLoop (s : State) (i : Nat) (blocks bg : Nat) : Nat → State × Option (Nat × Nat)
  | 0 => (s, some (blocks, bg))
  | n + 1 =>
    match bgdRead s i false with
    | (s, none) => (s, none)
    | (s, some bgd) =>
      if s.u16 bgd Bgd.freeInodes = 0 then bgdSearchLoop s (i + 1) blocks bg n
      else if s.u16 bgd Bgd.freeBlocks > blocks then bgdSearchLoop s (i + 1) (s.u16 bgd Bgd.freeBlocks) i n
      else bgdSearchLoop s (i + 1) blocks bg n

/-- `ext2_bgd_search`: the status and the group, which stays as it was when none is found. -/
def bgdSearch (bg : Nat) : State × Int × Nat :=
  match bgdSearchLoop s 0 0 bg s.sb.bgdsTotal with
  | (s, none) => (s, s.errno, bg)
  | (s, some (blocks, bg)) => if blocks = 0 then (s, -ENOSPC, bg) else (s, 0, bg)

/-! ### Freeing blocks -/

def markFree (bgd : Addr) (bitmap pos count : Nat) : State :=
  let s := s.bound (count = 0 ∨ pos + count ≤ 8 * s.sb.blockSize)
  let s := s.poke bitmap (·.clrBits pos count)
  let s := s.set16 bgd Bgd.freeBlocks (s.u16 bgd Bgd.freeBlocks + count)
  { s with freeBlocks := add32 s.freeBlocks count }

/-- `ext2_blocks_free`. The run is cleared in the bitmap of the group of its first block. -/
def blocksFree (start count : Nat) : State × Int :=
  let pos := sub32 start s.sb.firstDataBlock
  let bg := pos / s.sb.blocksPerGroup
  let pos := pos % s.sb.blocksPerGroup
  match bgdRead s bg true with
  | (s, none) => (s, s.errno)
  | (s, some bgd) =>
    let bitmap := s.u32 bgd Bgd.blockBitmap
    match readCached s bitmap true with
    | (s, false) => (s, s.errno)
    | (s, true) => (markFree s bgd bitmap pos count, 0)

/-! ### Allocating blocks -/

/-- The run of free blocks that is being counted, and the best one so far. -/
structure Scan where
  currStart : Nat := 0
  currCount : Nat := 0
  bestStart : Nat := 0
  bestCount : Nat := 0
  deriving DecidableEq, Repr

def Scan.close (r : Scan) : Scan :=
  if r.bestCount = 0 then { r with bestStart := r.currStart, bestCount := r.currCount }
  else if r.currCount ≥ cnt then
    if r.bestCount < cnt ∨ r.currCount < r.bestCount then { r with bestStart := r.currStart, bestCount := r.currCount }
    else r
  else if r.currCount > r.bestCount then { r with bestStart := r.currStart, bestCount := r.currCount }
  else r

def scanBit (r : Scan) (pos : Nat) (bit : Bool) : Scan :=
  if bit = false then
    if r.currCount = 0 then { r with currStart := pos, currCount := 1 } else { r with currCount := r.currCount + 1 }
  else if r.currCount = 0 then r
  else { r.close cnt with currCount := 0 }

/-- The inner loop: the bits `j`, `j + 1`, … of byte `i`. -/
def scanByte (cnt : Nat) (bitmap : Block) (i : Nat) : (n j : Nat) → Scan → Scan
  | 0, _, r => r
  | n + 1, j, r => scanByte cnt bitmap i n (j + 1) (scanBit cnt r (8 * i + j) (bitmap.bit (8 * i + j)))

/-- The outer loop over `n` bytes from `i` on: full bytes are skipped, and an exact fit ends the search. -/
def scanBytes (cnt : Nat) (bitmap : Block) : (n i : Nat) → Scan → Scan
  | 0, _, r => r
  | n + 1, i, r =>
    if bitmap i = 0xFF#8 then scanBytes cnt bitmap n (i + 1) r
    else
      let r := scanByte cnt bitmap i 8 0 r
      if r.bestCount = cnt then r else scanBytes cnt bitmap n (i + 1) r

def scan (bitmap : Block) (size : Nat) : Scan := (scanBytes cnt bitmap size 0 {}).close cnt

structure AllocOut where
  status : Int
  bg : Nat
  count : Nat
  start : Nat
  deriving DecidableEq, Repr

/-- The group that an allocation takes: the wanted one, or when its counter at `free` is zero the one that the search
finds. -/
def pickGroup (grp free : Nat) : State × Except Int (Nat × Addr) :=
  match bgdRead s grp true with
  | (s, none) => (s, .error s.errno)
  | (s, some bgd) =>
    if s.u16 bgd free ≠ 0 then (s, .ok (grp, bgd))
    else
      match bgdSearch s grp with
      | (s, status, grp) =>
        if status < 0 then (s, .error status)
        else
          match bgdRead s grp true with
          | (s, none) => (s, .error s.errno)
          | (s, some bgd) => (s, .ok (grp, bgd))

def markUsed (bgd : Addr) (bitmap start max : Nat) : State :=
  let s := s.poke bitmap (·.setBits start max)
  let s := s.set16 bgd Bgd.freeBlocks (s.u16 bgd Bgd.freeBlocks + (2 ^ 16 - max % 2 ^ 16))
  { s with freeBlocks := sub32 s.freeBlocks max }

def blocksAlloc (bg count start : Nat) : State × AllocOut :=
  if count = 0 then (s, { status := 0, bg, count, start })
  else
    match pickGroup s bg Bgd.freeBlocks with
    | (s, .error e) => (s, { status := e, bg, count, start })
    | (s, .ok (grp, bgd)) =>
      let bitmap := s.u32 bgd Bgd.blockBitmap
      match readCached s bitmap true with
      | (s, false) => (s, { status := s.errno, bg, count, start })
      | (s, true) =>
        let r := scan count (s.data bitmap) s.sb.blockSize
        let max := min r.bestCount count
        (markUsed s bgd bitmap r.bestStart max,
          { status := max, bg := grp, count := count - max,
            start := add32 r.bestStart (grp * s.sb.blocksPerGroup) })

/-! ### Distribution of indirect blocks -/

def distDoubly (singly : Nat) (inclusive : Bool) : (fuel : Nat) → Int → Nat → Nat
  | 0, _, nds => nds
  | fuel + 1, count, nds =>
    if count > 0 then
      let count := if inclusive then count - 1 else count
      distDoubly singly inclusive fuel (count - singly) (nds + 1)
    else nds

/-- The loop over the pointer blocks of the triply indirect block: `nds` counts its second level as well. -/
def distTriply (singly : Nat) (inclusive : Bool) : (fuel : Nat) → Int → Nat → Nat → Nat × Nat
  | 0, _, nds, nts => (nds, nts)
  | fuel + 1, count, nds, nts =>
    if count > 0 then
      let full := nts % singly = 0
      let nds := if full then nds + 1 else nds
      let count := if full ∧ inclusive then count - 1 else count
      let count := if inclusive then count - 1 else count
      distTriply singly inclusive fuel (count - singly) nds (nts + 1)
    else (nds, nts)

/-- The body of `ext2_blocks_dist` before the totals. Each round of its loops takes at least one off `count`. -/
def distLevels (singly : Nat) (nblocks : Nat) (inclusive : Bool) : Ibd :=
  let doubly : Nat := singly * singly
  let count : Int := nblocks
  if count > 12 then
    let count := count - 12
    let count := if inclusive then count - 1 else count
    if count > singly then
      let count := count - singly
      let count := if inclusive then count - 1 else count
      if count > doubly then
        let count := count - doubly
        let count := if inclusive then count - singly - 1 else count
        let (nds, nts) := distTriply singly inclusive count.toNat count singly 0
        { ns := 1, nd := 1, nds, nt := 1, nts }
      else { ns := 1, nd := 1, nds := distDoubly singly inclusive count.toNat count 0 }
    else { ns := 1 }
  else {}

/-- `ext2_blocks_dist`. The number of blocks is a 32-bit parameter. -/
def blocksDist (sb : Superblock) (nblocks : Nat) (inclusive : Bool) : Ibd :=
  let nblocks := nblocks % 2 ^ 32
  let item := distLevels sb.singly nblocks inclusive
  let inum := item.ns + item.nd + item.nds + item.nt + item.ntd + item.nts
  { item with inum, dnum := if inclusive then nblocks - inum else nblocks }

end Novino.Ext2
