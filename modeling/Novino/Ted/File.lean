import Novino.Ext2.File

/-! The files of the text editor (`apps/ted/file.c`). A file is an array of lines, of which the first `size` are in use,
    and a line is a buffer that grows. Memory is found, and the system calls work; a store outside a buffer and an
    overflow of an `int` are `none`. -/

namespace Novino.Ted
open Ext2 (toInt32)

def newline : Byte := 10

/-- `line_t`: `text` is what `data` holds, of `size` bytes, before the NUL at its end. -/
structure Line where
  text : List Byte
  cap : Nat
  deriving DecidableEq, Repr

def Line.fresh : Line := ⟨[], 128⟩

/-- `file_t`; the array has `cap` lines. -/
structure File where
  line : List Line
  size : Nat
  deriving DecidableEq, Repr

/-- The capacity of `line_grow`: doubled once, and then until it is at least `minsz`. Within 32 rounds it overflows. -/
def growCap (minsz : Nat) : Nat → Nat → Option Nat
  | 0, _ => none
  | n + 1, cap =>
    if 2 ^ 31 ≤ 2 * cap then none
    else if 2 * cap < minsz then growCap minsz n (2 * cap)
    else some (2 * cap)

namespace File
variable (f : File)

def lineGrow (num minsz : Nat) : Option File := do
  let line ← f.line[num]?
  let cap ← growCap minsz 32 line.cap
  some { f with line := f.line.set num { line with cap := cap } }

def fileGrow : Option File :=
  let cap := if f.line.length = 0 then 512 else 2 * f.line.length
  if 2 ^ 31 ≤ cap then none
  else some { f with line := f.line ++ List.replicate (cap - f.line.length) Line.fresh }

def new : Option File := fileGrow ⟨[], 1⟩

def take : Option File := if f.size < f.line.length then some { f with size := f.size + 1 } else none

def put (num : Nat) (ch : Byte) : Option File := do
  let line ← f.line[num]?
  if line.text.length + 1 < line.cap then
    some { f with line := f.line.set num { line with text := line.text ++ [ch] } }
  else none

end File

/-- The file and `lnum` in `file_read`; `line` always is the line of this number. -/
structure Reader where
  file : File
  lnum : Nat

namespace Reader
variable (r : Reader)

def growArray : Option Reader :=
  if r.file.size = r.file.line.length then r.file.fileGrow.map (⟨·, r.lnum⟩) else some r

def growLine : Option Reader := do
  let line ← r.file.line[r.lnum]?
  if line.text.length + 1 = line.cap then (r.file.lineGrow r.lnum 0).map (⟨·, r.lnum⟩) else some r

def grow : Option Reader := r.growArray.bind growLine

def read (ch : Byte) : Option Reader :=
  if ch = newline then r.file.take.bind fun f => grow ⟨f, r.file.size⟩
  else (r.file.put r.lnum ch).bind fun f => grow ⟨f, r.lnum⟩

end Reader

/-- `file_read` of a file with the given content. A buffer of a negative length is not found, and `fread` stores through
the null pointer. -/
def fileRead (content : List Byte) : Option File :=
  let len := toInt32 content.length
  if len < 0 then none
  else
    File.new.bind fun f => ((content.take len.toNat).foldlM Reader.read ⟨f, 0⟩).map (·.file)

def Line.fputs (l : Line) : List Byte := l.text.takeWhile (· ≠ 0)

/-- What `file_write` writes; `none` when there is no last line. -/
def fileWrite (f : File) : Option (List Byte) := do
  let last ← f.line[f.size - 1]?
  let before := (f.line.take (f.size - 1)).flatMap fun l => l.fputs ++ [newline]
  some (before ++ if last.text.length ≠ 0 then last.fputs ++ [newline] else [])

end Novino.Ted
