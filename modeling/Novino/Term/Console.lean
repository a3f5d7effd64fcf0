import Mathlib.Algebra.Group.Nat.Defs
import Mathlib.Tactic.Common

/-! The console (`kernel/term/console.c`), over the display that draws it: `vga.c` in text mode, `vesa.c` in graphics
    mode. The lock is left out: each function is one step. -/

namespace Novino.Term

def CURSOR : BitVec 32 := 8
def WRAP : BitVec 32 := 16
def NOSCRL : BitVec 32 := 32

/-- `console_t` over the state of a display. -/
structure Console (σ : Type) where
  flags : BitVec 32
  pos_x : BitVec 32
  pos_y : BitVec 32
  max_x : BitVec 32
  max_y : BitVec 32
  active : Bool
  display : σ

/-- The functions of a display that the console calls: those of `vesa.c` if `vesamode` is set, else those of `vga.c`. -/
structure Display (σ : Type) where
  putch : Console σ → BitVec 32 → σ
  scroll : Console σ → σ
  clear : Console σ → σ
  toggleCursor : Console σ → σ
  setColor : Console σ → BitVec 32 → BitVec 32 → σ
  refresh : Console σ → σ

theorem slt_zero_iff (x : BitVec 32) : x.slt 0 = true ↔ 2 ^ 31 ≤ x.toNat := by
  rw [show (0 : BitVec 32) = 0#32 from rfl, BitVec.slt_zero_eq_msb, BitVec.msb_eq_decide]
  simp

/-- `while(x < 0)` in `console_move_cursor`, where integers wrap around. With no columns the loop would not end. -/
def wrapLeft (max_x x y : BitVec 32) : BitVec 32 × BitVec 32 :=
  if x.slt 0 ∧ max_x ≠ 0 then wrapLeft max_x (x + max_x) (y - 1) else (x, y)
termination_by if x.toNat < 2 ^ 31 then 0 else if max_x.toNat < 2 ^ 31 then 2 ^ 32 - x.toNat else x.toNat
decreasing_by
  rename_i h
  have hx := (slt_zero_iff x).mp h.1
  have hmax : 0 < max_x.toNat := Nat.pos_of_ne_zero fun h0 => h.2 (BitVec.eq_of_toNat_eq h0)
  have := x.isLt
  have := max_x.isLt
  rw [BitVec.toNat_add, if_neg (Nat.not_lt.mpr hx)]
  split
  · split <;> omega
  · split <;> omega

/-- `while(x >= c->max_x)`, where the comparison is one of unsigned integers. -/
def wrapRight (max_x x y : BitVec 32) : BitVec 32 × BitVec 32 :=
  if max_x ≤ x ∧ max_x ≠ 0 then wrapRight max_x (x - max_x) (y + 1) else (x, y)
termination_by x.toNat
decreasing_by
  rename_i h
  have hmax : 0 < max_x.toNat := Nat.pos_of_ne_zero fun h0 => h.2 (BitVec.eq_of_toNat_eq h0)
  have hle := BitVec.le_def.mp h.1
  rw [BitVec.toNat_sub_of_le h.1]
  omega

def clamp (max x : BitVec 32) : BitVec 32 :=
  if x.slt 0 then 0 else if max ≤ x then max - 1 else x

namespace Console

variable {σ : Type} (d : Display σ) (c : Console σ) (ch : BitVec 32)

def toggleCursor : Console σ :=
  if c.flags &&& CURSOR ≠ 0 then { c with display := d.toggleCursor c } else c

def scroll : Console σ :=
  if c.pos_y < c.max_y then c
  else
    let c := if c.flags &&& NOSCRL = 0 then { c with display := d.scroll c } else c
    { c with pos_y := c.pos_y - 1, pos_x := 0 }

def advance : Console σ :=
  if ch = 10 then { c with pos_y := c.pos_y + 1, pos_x := 0 }
  else if ch = 8 then
    if 0 < c.pos_x then { c with pos_x := c.pos_x - 1 }
    else if 0 < c.pos_y then { c with pos_y := c.pos_y - 1, pos_x := c.max_x - 1 }
    else c
  else if ch = 13 then { c with pos_x := 0 }
  else if ch = 9 then
    let c := { c with pos_x := (c.pos_x + 8) &&& 0xFFF8 }
    if c.max_x ≤ c.pos_x then { c with pos_x := c.pos_x - c.max_x, pos_y := c.pos_y + 1 } else c
  else if BitVec.sle 0x10 ch then
    let c := { c with display := d.putch c ch }
    if c.pos_x + 1 = c.max_x then { c with pos_x := 0, pos_y := c.pos_y + 1 } else { c with pos_x := c.pos_x + 1 }
  else c

def putchar : Console σ := (c.advance d ch).scroll d

def setFlags (flags : BitVec 32) : Console σ :=
  if (flags ^^^ c.flags) &&& CURSOR ≠ 0 then
    if flags &&& CURSOR ≠ 0 then { c with flags := flags }.toggleCursor d
    else { c.toggleCursor d with flags := flags }
  else { c with flags := flags }

def moved (x y : BitVec 32) (rela : Bool) : BitVec 32 × BitVec 32 :=
  let (x, y) := if rela then (x + c.pos_x, y + c.pos_y) else (x, y)
  let (x, y) := if c.flags &&& WRAP ≠ 0 then
    let (x, y) := wrapLeft c.max_x x y
    wrapRight c.max_x x y
  else (x, y)
  (clamp c.max_x x, clamp c.max_y y)

def moveCursor (x y : BitVec 32) (rela : Bool) : Console σ :=
  let c := c.toggleCursor d
  let pos := c.moved x y rela
  { c with pos_x := pos.1, pos_y := pos.2 }.toggleCursor d

def setColor (fg bg : BitVec 32) : Console σ := { c with display := d.setColor c fg bg }

def clear : Console σ :=
  let c := { c with pos_x := 0, pos_y := 0 }
  { c with display := d.clear c }.toggleCursor d

def refresh : Console σ := { c with display := d.refresh c }

def putch : Console σ := ((c.toggleCursor d).putchar d ch).toggleCursor d

/-- `console_puts`, for the characters before the end of the string. They are signed. -/
def puts (str : List (BitVec 8)) : Console σ :=
  (str.foldl (fun c ch => c.putchar d (ch.signExtend 32)) (c.toggleCursor d)).toggleCursor d

end Console

/-- What is done with a console between two writes. -/
inductive ConsoleOp
  | putch (ch : BitVec 32)
  | puts (str : List (BitVec 8))
  | moveCursor (x y : BitVec 32) (rela : Bool)
  | clear
  | setFlags (flags : BitVec 32)
  | setColor (fg bg : BitVec 32)
  /-- `term_switch` leaves the console or comes to it. -/
  | select (active : Bool)
deriving DecidableEq, Repr

def Console.step {σ : Type} (d : Display σ) (c : Console σ) : ConsoleOp → Console σ
  | .putch ch => c.putch d ch
  | .puts str => c.puts d str
  | .moveCursor x y rela => c.moveCursor d x y rela
  | .clear => c.clear d
  | .setFlags flags => c.setFlags d flags
  | .setColor fg bg => c.setColor d fg bg
  | .select active => if active then { c with active := true }.refresh d else { c with active := false }

end Novino.Term
