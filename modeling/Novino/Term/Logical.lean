import Novino.Term.Console

/-! What a console is meant to show: a cell for each position, and the cursor as a cell that is drawn inverted. -/

namespace Novino.Term

structure Logical (γ κ : Type) where
  colour : γ
  cells : Nat → κ

structure Paint (γ κ : Type) where
  cell : γ → BitVec 32 → κ
  blank : γ → κ
  recolour : γ → BitVec 32 → BitVec 32 → γ
  invert : κ → κ
  invert_invert : ∀ k, invert (invert k) = k

variable {σ γ κ : Type}

def Console.index (c : Console σ) : Nat := c.pos_y.toNat * c.max_x.toNat + c.pos_x.toNat

def Paint.inverted (p : Paint γ κ) (l : Logical γ κ) (i : Nat) : Logical γ κ :=
  { l with cells := Function.update l.cells i (p.invert (l.cells i)) }

def Paint.display (p : Paint γ κ) : Display (Logical γ κ) where
  putch c ch := { c.display with cells := Function.update c.display.cells c.index (p.cell c.display.colour ch) }
  scroll c := { c.display with
    cells := fun i =>
      if i < c.max_x.toNat * (c.max_y.toNat - 1) then c.display.cells (i + c.max_x.toNat)
      else p.blank c.display.colour }
  clear c := { c.display with cells := fun _ => p.blank c.display.colour }
  toggleCursor c := c.display
  setColor c fg bg := { c.display with colour := p.recolour c.display.colour fg bg }
  refresh c := c.display

/-- What is to be seen of a console: its cells, with the one of the cursor inverted if the cursor is shown. -/
def Paint.shown (p : Paint γ κ) (l : Console (Logical γ κ)) : Logical γ κ :=
  if l.flags &&& CURSOR ≠ 0 then p.inverted l.display l.index else l.display

end Novino.Term
