import Novino.Libc.Mbtowc
import Novino.Term.Console

/-! What is written to a terminal (`kernel/term/term.c`). -/

namespace Novino.Term

open Libc

def max (a b : BitVec 32) : BitVec 32 := if a.slt b then b else a

def colorNormal : List (BitVec 32) := [0, 4, 2, 6, 1, 5, 3, 7]

def colorBright : List (BitVec 32) := [8, 12, 10, 14, 9, 13, 11, 15]

def escapeColor (val fg bg : BitVec 32) : BitVec 32 × BitVec 32 :=
  if val = 0 then (15, 0)
  else if val = 39 then (15, bg)
  else if val = 49 then (fg, 0)
  else if BitVec.sle 30 val ∧ BitVec.sle val 37 then (colorNormal.getD (val - 30).toNat 0, bg)
  else if BitVec.sle 90 val ∧ BitVec.sle val 97 then (colorBright.getD (val - 90).toNat 0, bg)
  else if BitVec.sle 40 val ∧ BitVec.sle val 47 then (fg, colorNormal.getD (val - 40).toNat 0)
  else if BitVec.sle 100 val ∧ BitVec.sle val 107 then (fg, colorBright.getD (val - 100).toNat 0)
  else (fg, bg)

section

variable {σ : Type} (d : Display σ)

def handleAnsiEscape (c : Console σ) (ch a b : BitVec 32) : Console σ :=
  if ch = 0x4A then if a = 2 then c.clear d else c
  else if ch = 0x41 then c.moveCursor d 0 (-max a 1) true
  else if ch = 0x42 then c.moveCursor d 0 (max a 1) true
  else if ch = 0x43 then c.moveCursor d (max a 1) 0 true
  else if ch = 0x44 then c.moveCursor d (-max a 1) 0 true
  else if ch = 0x45 then c.moveCursor d 0 (max a 1) true
  else if ch = 0x46 then c.moveCursor d 0 (-max a 1) true
  else if ch = 0x48 then c.moveCursor d (max b 1 - 1) (max a 1 - 1) false
  else if ch = 0x6D then
    let (fg, bg) := if BitVec.sle 0 a then escapeColor a (-1) (-1) else (-1, -1)
    let (fg, bg) := if BitVec.sle 0 b then escapeColor b fg bg else (fg, bg)
    c.setColor d fg bg
  else c

/-- The variables of `term_stdout`. It sets `a` and `b` before it uses them. -/
structure Stdout (σ : Type) where
  console : Console σ
  csi : Bool := false
  esc : Bool := false
  a : BitVec 32 := 0
  b : BitVec 32 := 0

def Stdout.feed (w : Stdout σ) (ch : BitVec 32) : Stdout σ :=
  if w.csi then
    if 0x40 ≤ ch ∧ ch ≤ 0x7E then
      let (a, b) := if w.b.slt 0 then (w.a, w.b) else (w.b, w.a)
      { w with console := handleAnsiEscape d w.console ch a b, csi := false }
    else if ch = 0x3B then { w with b := w.a, a := 0 }
    else { w with a := 10 * w.a + ctoi ch }
  else if w.esc ∧ ch = 0x5B then { w with csi := true, esc := false, a := 0, b := -1 }
  else if ch = 0x1B then { w with esc := true }
  else { w with console := w.console.putch d ch, esc := false }

/-- A pass of the loop of `term_stdout`, with the bytes that are left: `none` at the end of the loop. -/
def Stdout.pass (w : Stdout σ) (rest : List (BitVec 8)) : Option (Stdout σ × List (BitVec 8)) :=
  match mbtowc rest with
  | none => none
  | some (ch, s) => some (w.feed d ch, rest.drop s)

def Stdout.after (w : Stdout σ) (rest : List (BitVec 8)) : Nat → Stdout σ
  | 0 => w
  | n + 1 =>
    match w.pass d rest with
    | none => w
    | some (w, rest) => w.after rest n

/-- The loop of `term_stdout`. A pass that takes no bytes is repeated for ever (`none`). -/
def Stdout.loop (w : Stdout σ) (rest : List (BitVec 8)) : Nat → Option (Stdout σ)
  | 0 => some w
  | n + 1 =>
    match w.pass d rest with
    | none => some w
    | some (w, next) => if next.length = rest.length then none else w.loop next n

structure Vts (σ : Type) where
  flags : BitVec 32
  console : Console σ

def Vts.start (v : Vts σ) : Stdout σ where
  console := if v.flags &&& CURSOR ≠ 0 then v.console.setFlags d (v.flags ^^^ CURSOR) else v.console

def Vts.finish (v : Vts σ) (w : Stdout σ) : Vts σ :=
  { v with console := if v.flags &&& CURSOR ≠ 0 then w.console.setFlags d v.flags else w.console }

/-- `term_stdout`: `none` if it does not return. Each pass of the loop that is not the last takes a byte. -/
def termStdout (v : Vts σ) (seq : List (BitVec 8)) : Option (Vts σ) :=
  ((v.start d).loop d seq seq.length).map (v.finish d)

end

end Novino.Term
