import Mathlib.Tactic.Common

/-! Characters of a string (`libc/stdlib/mbtowc.c`, `libc/stdlib/wctomb.c`, `libc/stdlib/ctoi.c`). The kernel uses the
    same files. -/

namespace Novino.Libc

/-- The character at the end of `mbtowc`: `t` is what is left of the first byte, `shift` the number of bytes after it,
    and `ch` what these give. -/
def mbtowcEnd (t ch : BitVec 32) (shift : Nat) : BitVec 32 × Nat :=
  (ch ||| (t >>> shift &&& (0x3F >>> shift)) <<< (6 * shift), shift + 1)

def mbtowcLoop (t ch : BitVec 32) (shift : Nat) : List (BitVec 8) → Option (BitVec 32 × Nat)
  | [] => if t &&& 0xC0 = 0xC0 then none else some (mbtowcEnd t ch shift)
  | val :: rest =>
    if t &&& 0xC0 = 0xC0 then
      if val &&& 0xC0 ≠ 0x80 then none
      else mbtowcLoop (t <<< 1 &&& 0xFF) (ch <<< 6 ||| (val &&& 0x3F).setWidth 32) (shift + 1) rest
    else some (mbtowcEnd t ch shift)

/-- `mbtowc`: the character and the number of bytes that it takes, which is 0 for the character 0. -/
def mbtowc : List (BitVec 8) → Option (BitVec 32 × Nat)
  | [] => none
  | val :: rest =>
    if val < 128 then some (val.setWidth 32, if 0 < val then 1 else 0)
    else mbtowcLoop (val.setWidth 32) 0 0 rest

def wctomb (wc : BitVec 32) : Option (List (BitVec 8)) :=
  if wc < 0x80 then some [wc.setWidth 8]
  else if wc < 0x800 then some [(0xC0#32 ||| wc >>> 6).setWidth 8, (0x80#32 ||| wc &&& 0x3F).setWidth 8]
  else if 0xD800 ≤ wc ∧ wc ≤ 0xDFFF then none
  else if wc < 0x10000 then
    some [(0xE0#32 ||| wc >>> 12).setWidth 8, (0x80#32 ||| wc >>> 6 &&& 0x3F).setWidth 8,
      (0x80#32 ||| wc &&& 0x3F).setWidth 8]
  else if wc < 0x110000 then
    some [(0xF0#32 ||| wc >>> 18).setWidth 8, (0x80#32 ||| wc >>> 12 &&& 0x3F).setWidth 8,
      (0x80#32 ||| wc >>> 6 &&& 0x3F).setWidth 8, (0x80#32 ||| wc &&& 0x3F).setWidth 8]
  else none

def ctoi (ch : BitVec 32) : BitVec 32 :=
  if BitVec.sle 0x30 ch ∧ BitVec.sle ch 0x39 then ch - 0x30
  else if BitVec.sle 0x41 ch ∧ BitVec.sle ch 0x46 then 10 + ch - 0x41
  else if BitVec.sle 0x61 ch ∧ BitVec.sle ch 0x66 then 10 + ch - 0x61
  else -1

end Novino.Libc
