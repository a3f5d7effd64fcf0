import Novino.Yash.Parse

/-! Reading a line at the prompt (`yash_gets`), with the history of the lines before it. -/

namespace Novino.Yash

/-- What is typed. A completion of the word before the cursor is typed in the place of the tab. -/
inductive Key
  | char (c : Char)
  | tab (text : List Char)
  | backspace | delete | left | right | home | ending | up | down | enter
  deriving DecidableEq, Repr

/-- The line `str` up to its NUL with `pos`, the lines of the ring `hist` from the oldest one on, and `hpos`. -/
structure Prompt where
  line : List Char := []
  pos : Nat := 0
  hist : List (List Char) := []
  hpos : Nat := 0
  deriving DecidableEq, Repr

namespace Prompt

variable (p : Prompt)

def insert (c : Char) : Prompt :=
  if 32 ≤ c.toNat then { p with line := p.line.take p.pos ++ c :: p.line.drop p.pos, pos := p.pos + 1 } else p

/-- Where the word before the cursor starts: behind the last blank, or at 0. -/
def start : Nat := p.pos - ((p.line.take p.pos).reverse.takeWhile (· ≠ ' ')).length

/-- The word that a tab copies into `abuf`, which has 64 bytes. -/
def word : List Char := (p.line.take p.pos).drop p.start

def showEntry (hpos : Nat) : Prompt :=
  let line := p.hist.getD hpos []
  { p with line := line, pos := line.length, hpos := hpos }

/-- The line is stored in the history: it is not empty and not the last one. -/
def stores : Bool := p.line ≠ [] && p.hist.getLast? ≠ some p.line

def push : List (List Char) :=
  if p.stores then (if p.hist.length = 100 then p.hist.drop 1 else p.hist) ++ [p.line] else p.hist

def step : Key → Prompt
  | .char c => p.insert c
  -- The first word of a line is not completed.
  | .tab text => if p.start = 0 then p else text.foldl insert p
  | .backspace => if 0 < p.pos then { p with line := p.line.eraseIdx (p.pos - 1), pos := p.pos - 1 } else p
  | .delete => if p.pos < p.line.length then { p with line := p.line.eraseIdx p.pos } else p
  | .left => { p with pos := p.pos - 1 }
  | .right => if p.pos < p.line.length then { p with pos := p.pos + 1 } else p
  | .home => { p with pos := 0 }
  | .ending => { p with pos := p.line.length }
  | .up => if 0 < p.hpos then p.showEntry (p.hpos - 1) else p
  | .down =>
    if p.hpos < p.hist.length then
      if p.hpos + 1 = p.hist.length then { p with line := [], pos := 0, hpos :=
        p.hpos + 1 } else p.showEntry (p.hpos + 1)
    else p
  | .enter => { hist := p.push, hpos := p.push.length }

def allocated : Nat := p.line.length

end Prompt

end Novino.Yash
