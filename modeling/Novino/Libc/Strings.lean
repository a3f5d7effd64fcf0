import Novino.Lib.Bytes

/-! Strings of the C library (`strtok_r`, `strtrim`, `strcasecmp` in `libc/string`) and `ata_copy_string` of
    `kernel/storage/libata.c`. A buffer is the list of its bytes and a pointer into it an index. -/

namespace Novino.Libc

def cstr (buf : List Byte) (i : Nat) : List Byte := (buf.drop i).takeWhile (· != 0)

def isspace (c : Byte) : Bool := 0x09 ≤ c && c ≤ 0x0D || c == 0x20

def tolower (c : Byte) : Byte := if 0x41 ≤ c ∧ c ≤ 0x5A then c + 32 else c

def strcasecmp : List Byte → List Byte → Int
  | [], [] => 0
  | [], _ :: _ => -1
  | _ :: _, [] => 1
  | a :: s1, b :: s2 => if tolower a = tolower b then strcasecmp s1 s2 else if tolower a < tolower b then -1 else 1

/-! ### strtok_r -/

/-- The loop over the delimiters in front of a token: how many characters it passes. `p` is what is left of `ct` for the
first one. -/
def skipLoop (ct : List Byte) : List Byte → List Byte → Nat
  | [], _ => 0
  | _ :: _, [] => 0
  | d :: p, c :: str => if c = d then skipLoop ct ct str + 1 else skipLoop ct p (c :: str)
termination_by p str => (str.length, p.length)

def tokenLoop (ct : List Byte) : List Byte → Option Nat
  | [] => none
  | c :: tmp => if ct.contains c then some 0 else (tokenLoop ct tmp).map (· + 1)

/-- The buffer and the saved pointer of `strtok_r`. -/
structure Strtok where
  buf : List Byte
  sp : Option Nat

def strtokR (ct : List Byte) (s : Strtok) (str : Option Nat) : Strtok × Option Nat :=
  match str.or s.sp with
  | none => (s, none)
  | some i =>
    let i := i + skipLoop ct ct (cstr s.buf i)
    if cstr s.buf i = [] then (⟨s.buf, none⟩, none)
    else
      match tokenLoop ct (cstr s.buf i) with
      | none => (⟨s.buf, none⟩, some i)
      | some n => (⟨s.buf.set (i + n) 0, some (i + n + 1)⟩, some i)

/-- A call with the string of the buffer and then `k` calls with `NULL`: the last state and result. -/
def calls (ct : List Byte) (s : Strtok) : Nat → Strtok × Option Nat
  | 0 => strtokR ct s (some 0)
  | k + 1 => strtokR ct (calls ct s k).1 none

/-! ### strtrim

Each function returns `none` if it reads or writes outside the buffer. -/

def strlen : List Byte → Option Nat
  | [] => none
  | c :: s => if c = 0 then some 0 else (strlen s).map (· + 1)

def startLoop : List Byte → Option Nat
  | [] => none
  | c :: s => if isspace c then (startLoop s).map (· + 1) else some 0

/-- The loop that moves `end`, the address before the argument, down; the result is the address behind it. -/
def endLoop (buf : List Byte) : Nat → Option Nat
  | 0 => none
  | e + 1 => buf[e]?.bind fun c => if isspace c then endLoop buf e else some (e + 1)

/-- The loop that copies `n` characters from `start` to `dest` in one buffer, and the NUL behind them. -/
def copyLoop (dest start : Nat) : Nat → List Byte → Option (List Byte)
  | 0, buf => if dest < buf.length then some (buf.set dest 0) else none
  | n + 1, buf => buf[start]?.bind fun c =>
    if dest < buf.length then copyLoop (dest + 1) (start + 1) n (buf.set dest c) else none

/-- `strtrim` of a buffer onto itself. -/
def strtrim (buf : List Byte) : Option (List Byte) :=
  (strlen buf).bind fun len =>
    if len = 0 then some (buf.set 0 0)
    else
      (startLoop buf).bind fun start => (endLoop buf len).bind fun stop => copyLoop 0 start (stop - start) buf

/-- The bytes that `ata_copy_string` stores before it trims them; they fill the buffer. -/
def ataSwapped (src : List (BitVec 16)) : List Byte := src.flatMap (fun w => [w.extractLsb' 8 8, w.setWidth 8]) ++ [0]

def ataCopyString (src : List (BitVec 16)) : Option (List Byte) := strtrim (ataSwapped src)

end Novino.Libc
