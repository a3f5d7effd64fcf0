import Novino.Vfs.Clean

/-! The initial file system in a ustar archive (`kernel/vfs/initrd.c`).

    Pointers into the archive are offsets from its start. Strings are read up to the end of the archive at most, as if
    a NUL came behind it. -/

namespace Novino.Initrd
open Vfs (slash lastName)
open Ext2 (Name VInode I_FILE I_DIR ENOENT)

namespace Ustar
def mode : Nat := 100
def uid : Nat := 108
def gid : Nat := 116
def size : Nat := 124
def mtime : Nat := 136
def typeflag : Nat := 156
def magic : Nat := 257
def isize : Nat := 490
def offset : Nat := 494
def depth : Nat := 498
def basename : Nat := 502
end Ustar

def ustarSize : Nat := 510

def REGTYPE : Byte := 0x30
def DIRTYPE : Byte := 0x35

def TMAGIC : List Byte := [0x75, 0x73, 0x74, 0x61, 0x72, 0x00, 0x30, 0x30]

/-- The loop of `oct2bin` over the `size` characters at `c`, with the value `n` so far. The `int` wraps around. -/
def oct2binLoop (mem : Block) (n c : Nat) : (size : Nat) → Nat
  | 0 => n
  | size + 1 =>
    if 0x30 ≤ mem.rd8 c ∧ mem.rd8 c ≤ 0x37 then oct2binLoop mem ((mem.rd8 c - 0x30 + 8 * n) % 2 ^ 32) (c + 1) size
    else if mem c = 0x20 ∨ mem c = 0 then n
    else 0

def oct2bin (mem : Block) (c size : Nat) : Nat := oct2binLoop mem 0 c size

/-- `path2depth` of a string behind the byte `before`: the depth, and the string without a final slash. An empty
    string has no last character, and the source looks at the byte before it. -/
def path2depth (before : Byte) (str : Name) : Int × Name :=
  if str.getLast?.getD before = slash then (str.count slash - 1, str.dropLast) else (str.count slash, str)

/-- A header in the archive, with the byte before its name. -/
structure Header where
  raw : Block
  before : Byte
  name : Name

/-- A header with what `initrd_init` stores in it. -/
structure Entry extends Header where
  depth : Int
  isize : Nat
  basename : Name

def prepare (h : Header) : Entry :=
  let (depth, name) := path2depth h.before h.name
  { h with name, depth, isize := oct2bin h.raw Ustar.size 12, basename := lastName name }

/-- `tar2inode`, into an inode with the given flags. Only files and directories set them. -/
def tar2inode (e : Entry) (flags : Nat) : VInode where
  ino := 0
  flags :=
    if e.raw Ustar.typeflag = REGTYPE then I_FILE else if e.raw Ustar.typeflag = DIRTYPE then I_DIR else flags
  mode := oct2bin e.raw Ustar.mode 8 % 2 ^ 16
  links := 0
  uid := oct2bin e.raw Ustar.uid 8
  gid := oct2bin e.raw Ustar.gid 8
  size := e.isize
  blocks := (e.isize + 511) % 2 ^ 32 / 512
  blksz := 512
  atime := 0
  -- the `int` is extended with its sign
  mtime := ((oct2bin e.raw Ustar.mtime 12 : Int).bmod (2 ^ 32) % 2 ^ 64).toNat
  ctime := 0

variable (archive : List Entry)

/-- The start of `initrd_readdir` and `initrd_lookup`: the depth of the entries of the directory, its name, and the
headers that are looked at, of which the first one is its own. -/
def openDir : Option Nat → Int × Name × List Entry
  | none => (0, [], archive)
  | some i =>
    match archive.drop i with
    | [] => (0, [], [])
    | e :: es =>
      let (depth, name) := path2depth e.before e.name
      (1 + depth, name, { e with name } :: es)

def lookupLoop (depth : Int) (dirname name : Name) : List Entry → Except Int (Entry × VInode)
  | [] => .error (-ENOENT)
  | e :: es =>
    if depth ≠ e.depth then lookupLoop depth dirname name es
    else if ¬dirname <+: e.name then lookupLoop depth dirname name es
    else if e.basename = name then
      if (tar2inode e 0).flags ≠ 0 then .ok (e, tar2inode e 0) else .error (-ENOENT)
    else lookupLoop depth dirname name es

def initrdLookup (dir : Option Nat) (name : Name) : Except Int (Entry × VInode) :=
  lookupLoop (openDir archive dir).1 (openDir archive dir).2.1 name (openDir archive dir).2.2

/-- The loop of `initrd_readdir`: the entries that it puts while they are taken. The flags of the inode are those of
    the entry before when an entry does not set them. -/
def readdirLoop (depth : Int) (dirname : Name) (seek flags : Nat) : List Entry → List (Entry × VInode)
  | [] => []
  | e :: es =>
    if depth ≠ e.depth then readdirLoop depth dirname seek flags es
    else if depth ≠ 0 ∧ (¬dirname <+: e.name ∨ e.name[dirname.length]? ≠ some slash) then
      readdirLoop depth dirname seek flags es
    else
      let inode := tar2inode e flags
      if inode.flags = 0 then readdirLoop depth dirname seek inode.flags es
      else if seek ≠ 0 then readdirLoop depth dirname (seek - 1) inode.flags es
      else (e, inode) :: readdirLoop depth dirname 0 inode.flags es

/-- `initrd_readdir`. The inode on the stack is not cleared, `flags` is what is found there. -/
def initrdReaddir (dir : Option Nat) (seek flags : Nat) : List (Entry × VInode) :=
  readdirLoop (openDir archive dir).1 (openDir archive dir).2.1 seek flags (openDir archive dir).2.2

/-! ### The archive in memory -/

/-- An archive of `size` bytes, up to `last` (the variable `end`). -/
structure Image where
  mem : Block
  size : Nat
  last : Nat

namespace Image
variable (im : Image) (pos : Nat) (s : Image × Nat)

def str : Name := (im.mem.rdBytes pos (im.size - pos)).takeWhile (· != 0)

def header : Header where
  raw := im.mem.drop pos
  before := if pos = 0 then 0 else im.mem (pos - 1)
  name := im.str pos

def cut : Image :=
  if (im.str pos).getLast?.getD (im.header pos).before = slash then
    { im with mem := im.mem.wr8 (pos + (im.str pos).length - 1) 0 }
  else im

/-- The distance to the next header, computed in 32 bits. -/
def step (size : Nat) : Nat := ((size + 511) % 2 ^ 32 / 512 + 1) * 512 % 2 ^ 32

def stepAt : Nat := step (oct2bin im.mem (pos + Ustar.size) 12)

def prepareAt : Image :=
  let size := oct2bin im.mem (pos + Ustar.size) 12
  let depth := (path2depth (im.header pos).before (im.str pos)).1
  let im := im.cut pos
  let im := { im with mem := im.mem.wr32 (pos + Ustar.depth) depth.toNat }
  let im := { im with mem := im.mem.wr32 (pos + Ustar.isize) size }
  let im := { im with mem := im.mem.wr32 (pos + Ustar.offset) (step size) }
  let basename := pos + ((im.str pos).length - (lastName (im.str pos)).length)
  { im with mem := (im.mem.wr32 (pos + Ustar.basename) basename).wr32 (pos + Ustar.basename + 4) 0 }

/-- There is a header: the end is not reached, and this is not the padding at the end. -/
def Active : Prop := s.2 < s.1.last ∧ s.1.mem s.2 ≠ 0

instance (s : Image × Nat) : Decidable (Active s) := inferInstanceAs (Decidable (_ ∧ _))

def next : Image × Nat := if Active s then (s.1.prepareAt s.2, s.2 + s.1.stepAt s.2) else s

def finish : Image := if s.2 < s.1.last then { s.1 with last := s.2 } else s.1

/-- The next header that `initrd_lookup` and `initrd_readdir` look at, and the same one behind the end. -/
def hop : Nat := if pos < im.last then pos + im.mem.rd32 (pos + Ustar.offset) else pos

end Image

end Novino.Initrd
