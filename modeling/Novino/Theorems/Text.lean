import Mathlib.Tactic.IntervalCases
import Novino.Term.Vga
import Novino.Theorems.Screen

/-! Text mode shows the cells of the console. -/

namespace Novino.Term

theorem exchange_exchange (tmp : BitVec 16) : Vga.exchange (Vga.exchange tmp) = tmp := by
  apply BitVec.eq_of_getLsbD_eq
  intro i hi
  interval_cases i <;> simp [Vga.exchange]

def vgaPaint : Paint (BitVec 8) (BitVec 16) where
  cell := Vga.word
  blank attr := Vga.word attr 0x20
  recolour := Vga.recolour
  invert := Vga.exchange
  invert_invert := exchange_exchange

theorem memcpyw_apply {dst src : Nat} (h : dst ≤ src) (buf : Nat → BitVec 16) (len i : Nat) :
    memcpyw buf dst src len i = if dst ≤ i ∧ i < dst + len then buf (i + (src - dst)) else buf i := by
  induction len generalizing buf dst src with
  | zero =>
    rw [if_neg (by omega)]
    rfl
  | succ len ih =>
    rw [memcpyw, ih (by omega)]
    by_cases hi : i = dst
    · subst hi
      rw [if_neg (by omega), if_pos (by omega), Function.update_self]
      congr 1
      omega
    · by_cases hin : dst + 1 ≤ i ∧ i < dst + 1 + len
      · have hother : i + (src + 1 - (dst + 1)) ≠ dst := by omega
        rw [if_pos hin, if_pos (by omega), Function.update_of_ne hother]
        congr 1
        omega
      · rw [if_neg hin, if_neg (by omega), Function.update_of_ne hi]

theorem memsetw_apply (buf : Nat → BitVec 16) (dst : Nat) (val : BitVec 16) (len i : Nat) :
    memsetw buf dst val len i = if dst ≤ i ∧ i < dst + len then val else buf i := by
  induction len generalizing buf dst with
  | zero =>
    rw [if_neg (by omega)]
    rfl
  | succ len ih =>
    rw [memsetw, ih]
    by_cases hi : i = dst
    · subst hi
      rw [if_neg (by omega), if_pos (by omega), Function.update_self]
    · by_cases hin : dst + 1 ≤ i ∧ i < dst + 1 + len
      · rw [if_pos hin, if_pos (by omega)]
      · rw [if_neg hin, if_neg (by omega), Function.update_of_ne hi]

structure TextFit (c : Console Vga) (attr : BitVec 8) : Prop where
  cols : c.max_x = 80
  rows : c.max_y = 25
  attr : c.display.attr = attr

structure TextRep (c : Console Vga) (l : Logical (BitVec 8) (BitVec 16)) : Prop where
  fit : TextFit c l.colour
  buf : ∀ i < 2000, c.display.bufptr i = l.cells i
  mem : c.active = true → ∀ i < 2000, c.display.memptr i = c.display.bufptr i

variable {c : Console Vga} {l : Logical (BitVec 8) (BitVec 16)} {attr : BitVec 8}

theorem Vga.pos_eq (hfit : TextFit c attr)
    (hin : Inside c) : Vga.pos c = c.index ∧ c.index < 2000 := by
  have hx := hin.x
  have hy := hin.y
  unfold Vga.pos Console.index
  rw [hfit.cols] at hx ⊢
  rw [hfit.rows] at hy
  have hx' : c.pos_x.toNat < 80 := hx
  have hy' : c.pos_y.toNat < 25 := hy
  rw [BitVec.toNat_setWidth, BitVec.toNat_add, BitVec.toNat_mul, show (80 : BitVec 32).toNat = 80 from rfl]
  omega

theorem Vga.size_eq (hfit : TextFit c attr) :
    Vga.size c c.max_y = 2000 ∧ Vga.size c (c.max_y - 1) = 1920 ∧ c.max_x.toNat = 80 := by
  unfold Vga.size
  rw [hfit.cols, hfit.rows]
  decide

theorem TextRep.store (h : TextRep c l) (i : Nat) (tmp : BitVec 16) :
    TextRep { c with display := Vga.store c i tmp } { l with cells := Function.update l.cells i tmp } := by
  refine ⟨⟨h.fit.cols, h.fit.rows, h.fit.attr⟩, ?_, ?_⟩
  · intro j hj
    show Function.update c.display.bufptr i tmp j = Function.update l.cells i tmp j
    by_cases hji : j = i
    · rw [hji, Function.update_self, Function.update_self]
    · rw [Function.update_of_ne hji, Function.update_of_ne hji, h.buf j hj]
  · intro hactive j hj
    have hactive : c.active = true := hactive
    show (if c.active then Function.update c.display.memptr i tmp else c.display.memptr) j =
      Function.update c.display.bufptr i tmp j
    rw [if_pos hactive]
    by_cases hji : j = i
    · rw [hji, Function.update_self, Function.update_self]
    · rw [Function.update_of_ne hji, Function.update_of_ne hji, h.mem hactive j hj]

theorem TextFit.displayAll (hfit : TextFit c attr) {buf cells : Nat → BitVec 16}
    (h : ∀ i < 2000, buf i = cells i) : TextRep { c with display := Vga.displayAll c buf } ⟨attr, cells⟩ := by
  refine ⟨⟨hfit.cols, hfit.rows, hfit.attr⟩, h, ?_⟩
  intro hactive i hi
  have hactive : c.active = true := hactive
  show (if c.active then flushw c.display.memptr buf (Vga.size c c.max_y) else c.display.memptr) i = buf i
  rw [if_pos hactive, (Vga.size_eq hfit).1]
  exact if_pos hi

section
variable (h : TextRep c l)
include h

theorem TextRep.toggleCursor_eq (hin : Inside c) :
    Vga.toggleCursor c = Vga.store c c.index (Vga.exchange (l.cells c.index)) := by
  obtain ⟨hpos, hlt⟩ := Vga.pos_eq h.fit hin
  unfold Vga.toggleCursor
  rw [hpos, h.buf c.index hlt]

theorem TextRep.toggle (hin : Inside c) :
    TextRep { c with display := Vga.toggleCursor c } (vgaPaint.inverted l c.index) := by
  rw [h.toggleCursor_eq hin]
  exact h.store _ _

theorem TextRep.restore (hin : Inside c) : Vga.toggleCursor { c with display := Vga.toggleCursor c } = c.display := by
  obtain ⟨-, hlt⟩ := Vga.pos_eq h.fit hin
  have hin' : Inside { c with display := Vga.toggleCursor c } := hin.of_place rfl
  rw [(h.toggle hin).toggleCursor_eq hin', h.toggleCursor_eq hin]
  have hcell : Vga.exchange ((vgaPaint.inverted l c.index).cells c.index) = c.display.bufptr c.index := by
    show Vga.exchange (Function.update l.cells c.index (Vga.exchange (l.cells c.index)) c.index) = _
    rw [Function.update_self, exchange_exchange, h.buf c.index hlt]
  have hindex : Console.index { c with display := Vga.store c c.index (Vga.exchange (l.cells c.index)) } = c.index :=
    rfl
  rw [hindex, hcell]
  unfold Vga.store
  by_cases hactive : c.active = true
  · simp only [hactive, if_true, Function.update_idem, Function.update_eq_self]
    rw [← h.mem hactive c.index hlt, Function.update_eq_self]
  · simp only [hactive, Function.update_idem, Function.update_eq_self, Bool.false_eq_true, if_false]

theorem TextRep.scroll : TextRep { c with display := Vga.scroll c } (vgaPaint.display.scroll (c.on l)) := by
  obtain ⟨-, hsize, hcols⟩ := Vga.size_eq h.fit
  refine h.fit.displayAll fun i hi => ?_
  have hlogical : (c.on l).max_x.toNat * ((c.on l).max_y.toNat - 1) = 1920 := by
    show c.max_x.toNat * (c.max_y.toNat - 1) = 1920
    rw [hcols, h.fit.rows]
    rfl
  rw [hsize, hcols, memsetw_apply, memcpyw_apply (Nat.zero_le _), hlogical]
  by_cases hrow : i < 1920
  · rw [if_neg (by omega), if_pos (by omega), if_pos hrow]
    exact (h.buf _ (by omega)).trans (congrArg (fun n => l.cells (i + n)) hcols.symm)
  · rw [if_pos (by omega), if_neg hrow, h.fit.attr]
    rfl

end

theorem TextFit.clear (hfit : TextFit c attr) :
    TextRep { c with display := Vga.clear c } ⟨attr, fun _ => vgaPaint.blank attr⟩ := by
  refine hfit.displayAll fun i hi => ?_
  rw [(Vga.size_eq hfit).1, memsetw_apply, if_pos (by omega), hfit.attr]
  rfl

theorem vga_draws : Draws vga vgaPaint (fun _ => True) TextFit TextRep where
  frame := by
    intro c c' l h hx hy hactive hdisplay
    refine ⟨⟨hx.trans h.fit.cols, hy.trans h.fit.rows, hdisplay ▸ h.fit.attr⟩, ?_, ?_⟩
    · rw [hdisplay]
      exact h.buf
    · rw [hdisplay, hactive]
      exact h.mem
  putch := by
    intro c l h hin ch _
    have hput : Vga.putch c ch = Vga.store c c.index (Vga.word l.colour ch) := by
      unfold Vga.putch
      rw [(Vga.pos_eq h.fit hin).1, h.fit.attr]
    show TextRep { c with display := Vga.putch c ch } _
    rw [hput]
    exact h.store _ _
  toggle h hin := h.toggle hin
  scroll h _ := h.scroll
  fit h := h.fit
  clear := by
    intro c attr hfit
    have hzero : TextFit { c with pos_x := 0, pos_y := 0 } attr := ⟨hfit.cols, hfit.rows, hfit.attr⟩
    exact hzero.clear
  setColor h fg bg := ⟨⟨h.fit.cols, h.fit.rows, congrArg (Vga.recolour · fg bg) h.fit.attr⟩, h.buf, h.mem⟩
  hide h := ⟨⟨h.fit.cols, h.fit.rows, h.fit.attr⟩, h.buf, fun hactive => Bool.noConfusion hactive⟩
  refresh := by
    intro c l h
    have hfit : TextFit { c with active := true } l.colour := ⟨h.fit.cols, h.fit.rows, h.fit.attr⟩
    exact hfit.displayAll h.buf
  restore h hin := h.restore hin

end Novino.Term
