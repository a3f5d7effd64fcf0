import Novino.Term.Vesa
import Novino.Theorems.Screen

/-! Graphics mode shows the cells of the console, as long as the glyph of each character that is drawn is one that is
    drawn again by its own number. -/

namespace Novino.Term

theorem foldl_putpixel (buf : Pixels) (x0 y : Nat) (f : Nat → Color) (n x' y' : Nat) :
    (List.range n).foldl (fun buf j => putpixel buf (x0 + j) y (f j)) buf x' y' =
      if (x0 ≤ x' ∧ x' < x0 + n) ∧ y' = y then f (x' - x0) else buf x' y' := by
  induction n with
  | zero =>
    rw [if_neg (by omega)]
    rfl
  | succ n ih =>
    rw [List.range_succ, List.foldl_append]
    show (if x' = x0 + n ∧ y' = y then f n else _) = _
    rw [ih]
    by_cases hlast : x' = x0 + n ∧ y' = y
    · rw [if_pos hlast, if_pos (by omega), hlast.1, Nat.add_sub_cancel_left]
    · rw [if_neg hlast]
      exact if_congr (by omega) rfl rfl

variable {font : Psf} {w x x₀ j i y y₀ : Nat} {α : Type} {buf : Pixels} {k g : Glyph}

theorem drawRow_apply (g : Glyph) (x0 y0 i : Nat) (buf : Pixels) (x y : Nat) :
    Vesa.drawRow font g x0 y0 i buf x y =
      if (x0 ≤ x ∧ x < x0 + font.width) ∧ y = y0 + i then Vesa.paint font g (x - x0) i else buf x y :=
  foldl_putpixel ..

theorem drawGlyph_apply (g : Glyph) (x0 y0 : Nat) (buf : Pixels) (x y : Nat) :
    Vesa.drawGlyph font g x0 y0 buf x y =
      if (x0 ≤ x ∧ x < x0 + font.width) ∧ (y0 ≤ y ∧ y < y0 + font.height) then Vesa.paint font g (x - x0) (y - y0)
      else buf x y := by
  unfold Vesa.drawGlyph
  generalize font.height = n
  induction n with
  | zero =>
    rw [if_neg (by omega)]
    rfl
  | succ n ih =>
    rw [List.range_succ, List.foldl_append]
    show Vesa.drawRow font g x0 y0 n _ x y = _
    rw [drawRow_apply, ih]
    by_cases hlast : (x0 ≤ x ∧ x < x0 + font.width) ∧ y = y0 + n
    · rw [if_pos hlast, if_pos (by omega), hlast.2, Nat.add_sub_cancel_left]
    · rw [if_neg hlast]
      exact if_congr (by omega) rfl rfl

theorem foldl_drawLine (buf : Pixels) (width start n : Nat) (color : Color) (x y : Nat) :
    (List.range' start n).foldl (fun buf y => drawLine buf 0 width y color) buf x y =
      if x < width ∧ (start ≤ y ∧ y < start + n) then color else buf x y := by
  induction n with
  | zero =>
    rw [if_neg (by omega)]
    rfl
  | succ n ih =>
    rw [List.range'_1_concat, List.foldl_append]
    show (if (0 ≤ x ∧ x < width) ∧ y = start + n then color else _) = _
    rw [ih]
    by_cases hlast : (0 ≤ x ∧ x < width) ∧ y = start + n
    · rw [if_pos hlast, if_pos (by omega)]
    · rw [if_neg hlast]
      exact if_congr (by omega) rfl rfl

theorem block_iff (hj : j < w) : (x₀ * w ≤ x * w + j ∧ x * w + j < x₀ * w + w) ↔ x = x₀ := by
  constructor
  · rintro ⟨hle, hlt⟩
    rcases Nat.lt_trichotomy x x₀ with h | h | h
    · have hstep := Nat.mul_le_mul_right w (Nat.succ_le_of_lt h)
      rw [Nat.succ_mul] at hstep
      omega
    · exact h
    · have hstep := Nat.mul_le_mul_right w (Nat.succ_le_of_lt h)
      rw [Nat.succ_mul] at hstep
      omega
  · rintro rfl
    omega

def vesaPaint (font : Psf) (depth : Depth) : Paint (Color × Color) Glyph where
  cell colours ch := ⟨Vesa.glyphOf font ch, colours.1, colours.2⟩
  blank colours := ⟨32, colours.1, colours.2⟩
  recolour := Vesa.recolour depth
  invert g := ⟨g.ch, g.bg, g.fg⟩
  invert_invert _ := rfl

def Block (font : Psf) (buf : Pixels) (x y : Nat) (g : Glyph) : Prop :=
  ∀ j < font.width, ∀ i < font.height, buf (x * font.width + j) (y * font.height + i) = Vesa.paint font g j i

structure GraphicsFit (font : Psf) (depth : Depth) (c : Console Vesa) (colours : Color × Color) : Prop where
  depth : c.display.depth = depth
  colours : (c.display.fg, c.display.bg) = colours
  width : c.max_x.toNat * font.width ≤ c.display.width
  height : c.max_y.toNat * font.height ≤ c.display.height

def at_ (w : Nat) (cells : Nat → α) (x y : Nat) : α := cells (y * w + x)

/-- The pixels of all positions show the glyphs there, and each number of a glyph stands for itself. -/
structure GraphicsRep (font : Psf) (depth : Depth) (c : Console Vesa) (l : Logical (Color × Color) Glyph) : Prop where
  fit : GraphicsFit font depth c l.colour
  glyphs : ∀ x < c.max_x.toNat, ∀ y < c.max_y.toNat,
    at_ c.max_x.toNat c.display.glyphs x y = at_ c.max_x.toNat l.cells x y
  stable : ∀ x < c.max_x.toNat, ∀ y < c.max_y.toNat,
    Vesa.glyphOf font (at_ c.max_x.toNat l.cells x y).ch = (at_ c.max_x.toNat l.cells x y).ch
  buf : ∀ x < c.max_x.toNat, ∀ y < c.max_y.toNat,
    Block font c.display.bufaddr x y (at_ c.max_x.toNat l.cells x y)
  lfb : c.active = true → ∀ x < c.max_x.toNat, ∀ y < c.max_y.toNat,
    Block font c.display.lfbaddr x y (at_ c.max_x.toNat l.cells x y)

variable {depth : Depth} {c : Console Vesa} {l : Logical (Color × Color) Glyph}

/-! ### Drawing a glyph -/

def drawn (font : Psf) (c : Console Vesa) (g : Glyph) : Vesa :=
  let x0 := c.pos_x.toNat * font.width
  let y0 := c.pos_y.toNat * font.height
  let buf := Vesa.drawGlyph font g x0 y0 c.display.bufaddr
  { c.display with
    bufaddr := buf
    lfbaddr := Vesa.flushBlock c buf x0 (x0 + font.width) y0 (y0 + font.height)
    glyphs := Function.update c.display.glyphs (Vesa.pos c) g }

theorem putch_eq (ch : BitVec 32) :
    Vesa.putch font c ch = drawn font c ⟨Vesa.glyphOf font ch, c.display.fg, c.display.bg⟩ := rfl

theorem toggleCursor_eq : Vesa.toggleCursor font c =
    drawn font c ⟨Vesa.glyphOf font (c.display.glyphs (Vesa.pos c)).ch, (c.display.glyphs (Vesa.pos c)).bg,
      (c.display.glyphs (Vesa.pos c)).fg⟩ := rfl

theorem drawGlyph_block (g : Glyph) (buf : Pixels) (x y : Nat) (hj : j < font.width)
    (hi : i < font.height) :
    Vesa.drawGlyph font g (c.pos_x.toNat * font.width) (c.pos_y.toNat * font.height) buf (x * font.width + j)
      (y * font.height + i) =
    if x = c.pos_x.toNat ∧ y = c.pos_y.toNat then Vesa.paint font g j i
    else buf (x * font.width + j) (y * font.height + i) := by
  rw [drawGlyph_apply]
  by_cases hpos : x = c.pos_x.toNat ∧ y = c.pos_y.toNat
  · rw [if_pos hpos, if_pos ⟨(block_iff hj).mpr hpos.1, (block_iff hi).mpr hpos.2⟩, hpos.1, hpos.2,
      Nat.add_sub_cancel_left, Nat.add_sub_cancel_left]
  · rw [if_neg hpos, if_neg fun hin => hpos ⟨(block_iff hj).mp hin.1, (block_iff hi).mp hin.2⟩]

theorem Block.draw (h : Block font buf x y k) (g : Glyph) :
    Block font (Vesa.drawGlyph font g (c.pos_x.toNat * font.width) (c.pos_y.toNat * font.height) buf) x y
      (if x = c.pos_x.toNat ∧ y = c.pos_y.toNat then g else k) := by
  intro j hj i hi
  rw [drawGlyph_block g buf x y hj hi]
  split
  · rfl
  · exact h j hj i hi

theorem Block.flush (h : Block font c.display.lfbaddr x y k) (hactive : c.active = true)
    (g : Glyph) (buf : Pixels) :
    Block font (Vesa.flushBlock c
        (Vesa.drawGlyph font g (c.pos_x.toNat * font.width) (c.pos_y.toNat * font.height) buf)
        (c.pos_x.toNat * font.width) (c.pos_x.toNat * font.width + font.width)
        (c.pos_y.toNat * font.height) (c.pos_y.toNat * font.height + font.height)) x y
      (if x = c.pos_x.toNat ∧ y = c.pos_y.toNat then g else k) := by
  intro j hj i hi
  unfold Vesa.flushBlock copyBlock
  rw [if_pos hactive, drawGlyph_block g buf x y hj hi]
  by_cases hpos : x = c.pos_x.toNat ∧ y = c.pos_y.toNat
  · rw [if_pos hpos, if_pos hpos, if_pos ⟨(block_iff hj).mpr hpos.1, (block_iff hi).mpr hpos.2⟩]
  · rw [if_neg hpos, if_neg hpos, if_neg fun hin => hpos ⟨(block_iff hj).mp hin.1, (block_iff hi).mp hin.2⟩]
    exact h j hj i hi

theorem index_inj {x' y' : Nat} (hx : x < w) (hx' : x' < w) : y * w + x = y' * w + x' ↔ x = x' ∧ y = y' := by
  constructor
  · intro h
    have hy : y = y' := (block_iff hx).mp (by omega)
    subst hy
    exact ⟨by omega, rfl⟩
  · rintro ⟨rfl, rfl⟩
    rfl

theorem at_update (hx : x < w) (hx₀ : x₀ < w) (cells : Nat → α) (y y₀ : Nat) (k : α) :
    at_ w (Function.update cells (y₀ * w + x₀) k) x y = if x = x₀ ∧ y = y₀ then k else at_ w cells x y := by
  unfold at_
  by_cases hpos : x = x₀ ∧ y = y₀
  · rw [if_pos hpos, hpos.1, hpos.2, Function.update_self]
  · rw [if_neg hpos, Function.update_of_ne fun h => hpos ((index_inj hx hx₀).mp h)]

theorem pos_eq (c : Console Vesa) : Vesa.pos c = c.index := Nat.add_comm ..

section
variable (h : GraphicsRep font depth c l) (hin : Inside c)
include h hin

theorem GraphicsRep.draw {g : Glyph} (hg : Vesa.glyphOf font g.ch = g.ch) :
    GraphicsRep font depth { c with display := drawn font c g }
      { l with cells := Function.update l.cells c.index g } := by
  refine ⟨⟨h.fit.depth, h.fit.colours, h.fit.width, h.fit.height⟩, ?_, ?_, ?_, ?_⟩
  · intro x hx y hy
    show at_ _ (Function.update c.display.glyphs (Vesa.pos c) g) x y = at_ _ (Function.update l.cells _ g) x y
    rw [pos_eq]
    unfold Console.index
    rw [at_update hx hin.x, at_update hx hin.x, h.glyphs x hx y hy]
  · intro x hx y hy
    show Vesa.glyphOf font (at_ _ (Function.update l.cells _ g) x y).ch = (at_ _ (Function.update l.cells _ g) x y).ch
    unfold Console.index
    rw [at_update hx hin.x]
    split
    · exact hg
    · exact h.stable x hx y hy
  · intro x hx y hy
    show Block font _ x y (at_ _ (Function.update l.cells _ g) x y)
    unfold Console.index
    rw [at_update hx hin.x]
    exact (h.buf x hx y hy).draw g
  · intro hactive x hx y hy
    show Block font _ x y (at_ _ (Function.update l.cells _ g) x y)
    unfold Console.index
    rw [at_update hx hin.x]
    exact (h.lfb hactive x hx y hy).flush hactive g _

theorem GraphicsRep.cursor : c.display.glyphs (Vesa.pos c) = l.cells c.index ∧
      Vesa.glyphOf font (l.cells c.index).ch = (l.cells c.index).ch := by
  rw [pos_eq]
  exact ⟨h.glyphs _ hin.x _ hin.y, h.stable _ hin.x _ hin.y⟩

theorem GraphicsRep.toggleCursor_eq :
    Vesa.toggleCursor font c = drawn font c ((vesaPaint font depth).invert (l.cells c.index)) := by
  obtain ⟨hglyph, hstable⟩ := h.cursor hin
  rw [Term.toggleCursor_eq, hglyph, hstable]
  rfl

theorem GraphicsRep.toggle : GraphicsRep font depth { c with display := Vesa.toggleCursor font c }
      ((vesaPaint font depth).inverted l c.index) := by
  rw [h.toggleCursor_eq hin]
  exact h.draw hin (h.cursor hin).2

end

theorem Block.pixel (h : Block font buf x₀ y₀ g)
    (hx : x₀ * font.width ≤ x ∧ x < x₀ * font.width + font.width)
    (hy : y₀ * font.height ≤ y ∧ y < y₀ * font.height + font.height) :
    buf x y = Vesa.paint font g (x - x₀ * font.width) (y - y₀ * font.height) := by
  have hpixel := h (x - x₀ * font.width) (by omega) (y - y₀ * font.height) (by omega)
  rw [Nat.add_sub_cancel' hx.1, Nat.add_sub_cancel' hy.1] at hpixel
  exact hpixel

theorem Block.drawGlyph_same (h : Block font buf x₀ y₀ g) :
    Vesa.drawGlyph font g (x₀ * font.width) (y₀ * font.height) buf = buf := by
  funext x y
  rw [drawGlyph_apply]
  by_cases hin : (x₀ * font.width ≤ x ∧ x < x₀ * font.width + font.width) ∧
      (y₀ * font.height ≤ y ∧ y < y₀ * font.height + font.height)
  · rw [if_pos hin, h.pixel hin.1 hin.2]
  · rw [if_neg hin]

theorem drawGlyph_drawGlyph (g k : Glyph) (x0 y0 : Nat) (buf : Pixels) :
    Vesa.drawGlyph font g x0 y0 (Vesa.drawGlyph font k x0 y0 buf) = Vesa.drawGlyph font g x0 y0 buf := by
  funext x y
  rw [drawGlyph_apply, drawGlyph_apply, drawGlyph_apply]
  split <;> rfl

theorem copyBlock_copyBlock (dst src src' : Pixels) (x0 x1 y0 y1 : Nat) :
    copyBlock (copyBlock dst src x0 x1 y0 y1) src' x0 x1 y0 y1 = copyBlock dst src' x0 x1 y0 y1 := by
  funext x y
  unfold copyBlock
  split <;> rfl

theorem Block.copyBlock_same {dst src : Pixels} (hd : Block font dst x₀ y₀ g)
    (hs : Block font src x₀ y₀ g) :
    copyBlock dst src (x₀ * font.width) (x₀ * font.width + font.width) (y₀ * font.height)
      (y₀ * font.height + font.height) = dst := by
  funext x y
  unfold copyBlock
  split
  · rename_i hin
    rw [hd.pixel hin.1 hin.2, hs.pixel hin.1 hin.2]
  · rfl

theorem drawn_drawn (h : GraphicsRep font depth c l) (hin : Inside c) (g : Glyph) :
    drawn font { c with display := drawn font c g } (l.cells c.index) = c.display := by
  have hbuf := h.buf _ hin.x _ hin.y
  obtain ⟨hglyph, -⟩ := h.cursor hin
  have hglyphs : Function.update (Function.update c.display.glyphs (Vesa.pos c) g) (Vesa.pos c) (l.cells c.index) =
      c.display.glyphs := by
    rw [Function.update_idem, ← hglyph, Function.update_eq_self]
  have hpixels : Vesa.drawGlyph font (l.cells c.index) (c.pos_x.toNat * font.width) (c.pos_y.toNat * font.height)
      (Vesa.drawGlyph font g (c.pos_x.toNat * font.width) (c.pos_y.toNat * font.height) c.display.bufaddr) =
      c.display.bufaddr := by
    rw [drawGlyph_drawGlyph]
    exact hbuf.drawGlyph_same
  have hshape : drawn font { c with display := drawn font c g } (l.cells c.index) = { c.display with
      bufaddr := Vesa.drawGlyph font (l.cells c.index) (c.pos_x.toNat * font.width) (c.pos_y.toNat * font.height)
        (Vesa.drawGlyph font g (c.pos_x.toNat * font.width) (c.pos_y.toNat * font.height) c.display.bufaddr)
      lfbaddr := Vesa.flushBlock { c with display := drawn font c g }
        (Vesa.drawGlyph font (l.cells c.index) (c.pos_x.toNat * font.width) (c.pos_y.toNat * font.height)
          (Vesa.drawGlyph font g (c.pos_x.toNat * font.width) (c.pos_y.toNat * font.height) c.display.bufaddr))
        (c.pos_x.toNat * font.width) (c.pos_x.toNat * font.width + font.width) (c.pos_y.toNat * font.height)
        (c.pos_y.toNat * font.height + font.height)
      glyphs := Function.update (Function.update c.display.glyphs (Vesa.pos c) g) (Vesa.pos c) (l.cells c.index) } :=
    rfl
  have hflush : Vesa.flushBlock { c with display := drawn font c g } c.display.bufaddr (c.pos_x.toNat * font.width)
      (c.pos_x.toNat * font.width + font.width) (c.pos_y.toNat * font.height)
      (c.pos_y.toNat * font.height + font.height) = c.display.lfbaddr := by
    unfold Vesa.flushBlock
    by_cases hactive : c.active = true
    · rw [if_pos hactive]
      show copyBlock (if c.active = true then _ else _) _ _ _ _ _ = _
      rw [if_pos hactive, copyBlock_copyBlock]
      exact (h.lfb hactive _ hin.x _ hin.y).copyBlock_same hbuf
    · rw [if_neg hactive]
      exact if_neg hactive
  rw [hshape, hpixels, hglyphs, hflush]

theorem GraphicsRep.restore (h : GraphicsRep font depth c l) (hin : Inside c) :
    Vesa.toggleCursor font { c with display := Vesa.toggleCursor font c } = c.display := by
  have hin' : Inside { c with display := Vesa.toggleCursor font c } := hin.of_place rfl
  rw [(h.toggle hin).toggleCursor_eq hin', h.toggleCursor_eq hin]
  have hcell : (vesaPaint font depth).invert (((vesaPaint font depth).inverted l c.index).cells c.index) =
      l.cells c.index := by
    show (vesaPaint font depth).invert (Function.update l.cells c.index _ c.index) = _
    rw [Function.update_self, (vesaPaint font depth).invert_invert]
  exact (congrArg (drawn font _) hcell).trans (drawn_drawn h hin _)

/-! ### Lines and the whole screen -/

theorem place_lt {n : Nat} (hx : x < n) (hj : j < w) : x * w + j < n * w := by
  have hstep := Nat.mul_le_mul_right w (Nat.succ_le_of_lt hx)
  rw [Nat.succ_mul] at hstep
  omega

theorem glyphOf_space : Vesa.glyphOf font 32 = 32 := if_neg (by decide)

theorem at_scroll {h : Nat} (hx : x < w) (hy : y < h) (cells : Nat → α) (k : α) :
    at_ w (fun i => if i < w * (h - 1) then cells (i + w) else k) x y =
      if y + 1 < h then at_ w cells x (y + 1) else k := by
  simp only [at_]
  by_cases hrow : y + 1 < h
  · have hlt : y * w + x < w * (h - 1) := by
      rw [Nat.mul_comm w]
      exact place_lt (by omega) hx
    have hnext : y * w + x + w = (y + 1) * w + x := by
      rw [Nat.succ_mul]
      omega
    rw [if_pos hrow, if_pos hlt, hnext]
  · have hge : ¬y * w + x < w * (h - 1) := by
      rw [Nat.mul_comm w, show y = h - 1 by omega]
      omega
    rw [if_neg hrow, if_neg hge]

variable {colours : Color × Color}

theorem GraphicsFit.pixel_lt (hfit : GraphicsFit font depth c colours) (hx : x < c.max_x.toNat)
    (hy : y < c.max_y.toNat) (hj : j < font.width) (hi : i < font.height) :
    x * font.width + j < c.display.width ∧ y * font.height + i < c.display.height :=
  ⟨Nat.lt_of_lt_of_le (place_lt hx hj) hfit.width, Nat.lt_of_lt_of_le (place_lt hy hi) hfit.height⟩

theorem flushBlock_all (hactive : c.active = true) (buf : Pixels) (hx : x < c.display.width)
    (hy : y < c.display.height) :
    Vesa.flushBlock c buf 0 c.display.width 0 c.display.height x y = buf x y := by
  unfold Vesa.flushBlock copyBlock
  rw [if_pos hactive, if_pos ⟨⟨Nat.zero_le x, hx⟩, Nat.zero_le y, hy⟩]

theorem clear_bufaddr (c : Console Vesa) (x y : Nat) : (Vesa.clear c).bufaddr x y =
    if x < c.display.width ∧ y < c.display.height then c.display.bg else c.display.bufaddr x y := by
  have hlines := foldl_drawLine c.display.bufaddr c.display.width 0 c.display.height c.display.bg x y
  rw [← List.range_eq_range'] at hlines
  exact hlines.trans (if_congr (by omega) rfl rfl)

theorem scroll_bufaddr (c : Console Vesa) (x y : Nat) : (Vesa.scroll font c).bufaddr x y =
    if x < c.display.width ∧ (font.height * (c.max_y.toNat - 1) ≤ y ∧
      y < font.height * (c.max_y.toNat - 1) + (c.display.height - font.height * (c.max_y.toNat - 1))) then c.display.bg
    else if y < font.height * (c.max_y.toNat - 1) then c.display.bufaddr x (y + font.height)
    else c.display.bufaddr x y := foldl_drawLine ..

theorem scroll_pixel (hfit : GraphicsFit font depth c colours)
    (hx : x < c.max_x.toNat) (hy : y < c.max_y.toNat) (hj : j < font.width) (hi : i < font.height) :
    (Vesa.scroll font c).bufaddr (x * font.width + j) (y * font.height + i) =
      if y + 1 < c.max_y.toNat then c.display.bufaddr (x * font.width + j) ((y + 1) * font.height + i)
      else c.display.bg := by
  obtain ⟨hwidth, hheight⟩ := hfit.pixel_lt hx hy hj hi
  rw [scroll_bufaddr]
  by_cases hrow : y + 1 < c.max_y.toNat
  · have hlt : y * font.height + i < font.height * (c.max_y.toNat - 1) := by
      rw [Nat.mul_comm font.height]
      exact place_lt (by omega) hi
    have hnext : y * font.height + i + font.height = (y + 1) * font.height + i := by
      rw [Nat.succ_mul]
      omega
    rw [if_neg (by omega), if_pos hlt, if_pos hrow, hnext]
  · have hge : font.height * (c.max_y.toNat - 1) ≤ y * font.height + i := by
      rw [show c.max_y.toNat - 1 = y by omega, Nat.mul_comm]
      omega
    rw [if_neg hrow, if_pos (by omega)]

theorem scroll_glyphs (hx : x < c.max_x.toNat) (hy : y < c.max_y.toNat) :
    at_ c.max_x.toNat (Vesa.scroll font c).glyphs x y =
      if y + 1 < c.max_y.toNat then at_ c.max_x.toNat c.display.glyphs x (y + 1)
      else ⟨32, c.display.fg, c.display.bg⟩ := by
  have hlt : y * c.max_x.toNat + x < c.max_x.toNat * (c.max_y.toNat - 1) + c.max_x.toNat := by
    have hplace := place_lt hy hx
    rw [← Nat.mul_succ, Nat.succ_eq_add_one, Nat.sub_add_cancel (by omega), Nat.mul_comm c.max_x.toNat]
    exact hplace
  rw [← at_scroll hx hy]
  show (if _ then _ else if _ then _ else _) = if _ then _ else _
  rw [if_pos hlt]

theorem scroll_lfb (hactive : c.active = true) (x : Nat) (hy : y < c.display.height) :
    (Vesa.scroll font c).lfbaddr x y = (Vesa.scroll font c).bufaddr x y := by
  show (if c.active = true then _ else _ : Pixels) x y = _
  rw [if_pos hactive]
  exact if_pos hy

section

variable (hblank : ∀ i, font.row 32 i = 0)

include hblank

theorem Block.blank {buf : Pixels} {x y : Nat} {fg bg : Color}
    (h : ∀ j < font.width, ∀ i < font.height, buf (x * font.width + j) (y * font.height + i) = bg) :
    Block font buf x y ⟨32, fg, bg⟩ := by
  intro j hj i hi
  have hrow : Vesa.paint font ⟨32, fg, bg⟩ j i = bg := by
    unfold Vesa.paint
    rw [show (32 : BitVec 32).toNat = 32 from rfl, hblank]
    simp
  rw [h j hj i hi, hrow]

theorem GraphicsFit.clear {colours : Color × Color} (hfit : GraphicsFit font depth c colours) :
    GraphicsRep font depth { c with display := Vesa.clear c }
      ⟨colours, fun _ => (vesaPaint font depth).blank colours⟩ := by
  have hbg : c.display.bg = colours.2 := by rw [← hfit.colours]
  refine ⟨⟨hfit.depth, hfit.colours, hfit.width, hfit.height⟩, ?_, ?_, ?_, ?_⟩
  · intro x hx y hy
    show (if y * c.max_x.toNat + x < c.max_x.toNat * c.max_y.toNat then _ else _) = _
    rw [if_pos (Nat.mul_comm c.max_x.toNat c.max_y.toNat ▸ place_lt hy hx)]
    show (⟨32, c.display.fg, c.display.bg⟩ : Glyph) = ⟨32, colours.1, colours.2⟩
    rw [← hfit.colours]
  · intro x hx y hy
    exact glyphOf_space
  · intro x hx y hy
    refine Block.blank hblank fun j hj i hi => ?_
    exact (clear_bufaddr ..).trans ((if_pos (hfit.pixel_lt hx hy hj hi)).trans hbg)
  · intro hactive x hx y hy
    refine Block.blank hblank fun j hj i hi => ?_
    have hlt := hfit.pixel_lt hx hy hj hi
    have hflush := flushBlock_all (c := c) hactive (Vesa.clear c).bufaddr hlt.1 hlt.2
    exact hflush.trans ((clear_bufaddr ..).trans ((if_pos hlt).trans hbg))

theorem GraphicsRep.scroll (h : GraphicsRep font depth c l) :
    GraphicsRep font depth { c with display := Vesa.scroll font c }
      ((vesaPaint font depth).display.scroll (c.on l)) := by
  have hcell : ∀ x < c.max_x.toNat, ∀ y < c.max_y.toNat,
      at_ c.max_x.toNat ((vesaPaint font depth).display.scroll (c.on l)).cells x y =
        if y + 1 < c.max_y.toNat then at_ c.max_x.toNat l.cells x (y + 1)
        else ⟨32, c.display.fg, c.display.bg⟩ := by
    intro x hx y hy
    have hblankcell : (⟨32, c.display.fg, c.display.bg⟩ : Glyph) = (vesaPaint font depth).blank l.colour := by
      rw [← h.fit.colours]
      rfl
    rw [hblankcell]
    exact at_scroll hx hy l.cells _
  have hbuf : ∀ x < c.max_x.toNat, ∀ y < c.max_y.toNat, Block font (Vesa.scroll font c).bufaddr x y
      (at_ c.max_x.toNat ((vesaPaint font depth).display.scroll (c.on l)).cells x y) := by
    intro x hx y hy
    rw [hcell x hx y hy]
    by_cases hrow : y + 1 < c.max_y.toNat
    · rw [if_pos hrow]
      intro j hj i hi
      rw [scroll_pixel h.fit hx hy hj hi, if_pos hrow]
      exact h.buf x hx (y + 1) hrow j hj i hi
    · rw [if_neg hrow]
      refine Block.blank hblank fun j hj i hi => ?_
      rw [scroll_pixel h.fit hx hy hj hi, if_neg hrow]
  refine ⟨⟨h.fit.depth, h.fit.colours, h.fit.width, h.fit.height⟩, ?_, ?_, hbuf, ?_⟩
  · intro x hx y hy
    refine (scroll_glyphs (c := c) hx hy).trans (Eq.trans ?_ (hcell x hx y hy).symm)
    by_cases hrow : y + 1 < c.max_y.toNat
    · rw [if_pos hrow, if_pos hrow]
      exact h.glyphs x hx (y + 1) hrow
    · rw [if_neg hrow, if_neg hrow]
  · intro x hx y hy
    have hcell := hcell x hx y hy
    by_cases hrow : y + 1 < c.max_y.toNat
    · rw [if_pos hrow] at hcell
      exact hcell ▸ h.stable x hx (y + 1) hrow
    · rw [if_neg hrow] at hcell
      exact hcell ▸ glyphOf_space
  · intro hactive x hx y hy j hj i hi
    have hlt := (h.fit.pixel_lt hx hy hj hi).2
    exact (scroll_lfb (c := c) hactive _ hlt).trans (hbuf x hx y hy j hj i hi)

end

/-- The characters that graphics mode can draw: the number of the glyph has to stand for the glyph. -/
def Redrawn (font : Psf) (ch : BitVec 32) : Prop :=
  Vesa.glyphOf font (Vesa.glyphOf font ch) = Vesa.glyphOf font ch

theorem vesa_draws (hblank : ∀ i, font.row 32 i = 0) :
    Draws (vesa font) (vesaPaint font depth) (Redrawn font) (GraphicsFit font depth) (GraphicsRep font depth) where
  frame := by
    intro c c' l h hx hy hactive hdisplay
    refine ⟨⟨hdisplay ▸ h.fit.depth, hdisplay ▸ h.fit.colours, ?_, ?_⟩, ?_, ?_, ?_, ?_⟩
    · rw [hx, hdisplay]
      exact h.fit.width
    · rw [hy, hdisplay]
      exact h.fit.height
    · rw [hx, hy, hdisplay]
      exact h.glyphs
    · rw [hx, hy]
      exact h.stable
    · rw [hx, hy, hdisplay]
      exact h.buf
    · rw [hx, hy, hdisplay, hactive]
      exact h.lfb
  putch := by
    intro c l h hin ch hok
    have hcell : (⟨Vesa.glyphOf font ch, c.display.fg, c.display.bg⟩ : Glyph) =
        (vesaPaint font depth).cell l.colour ch := by
      rw [← h.fit.colours]
      rfl
    show GraphicsRep font depth { c with display := Vesa.putch font c ch } _
    rw [putch_eq, hcell]
    exact h.draw hin hok
  toggle h hin := h.toggle hin
  scroll h _ := h.scroll hblank
  fit h := h.fit
  clear := by
    intro c colours hfit
    have hzero : GraphicsFit font depth { c with pos_x := 0, pos_y := 0 } colours :=
      ⟨hfit.depth, hfit.colours, hfit.width, hfit.height⟩
    exact hzero.clear hblank
  setColor := by
    intro c l h fg bg
    refine ⟨⟨h.fit.depth, ?_, h.fit.width, h.fit.height⟩, h.glyphs, h.stable, h.buf, h.lfb⟩
    show Vesa.recolour c.display.depth (c.display.fg, c.display.bg) fg bg = _
    rw [h.fit.depth, h.fit.colours]
    rfl
  hide h :=
    ⟨⟨h.fit.depth, h.fit.colours, h.fit.width, h.fit.height⟩, h.glyphs, h.stable, h.buf,
      fun hactive => Bool.noConfusion hactive⟩
  refresh := by
    intro c l h
    refine ⟨⟨h.fit.depth, h.fit.colours, h.fit.width, h.fit.height⟩, h.glyphs, h.stable, h.buf, ?_⟩
    intro _ x hx y hy j hj i hi
    have hpixel : (if y * font.height + i < c.display.height then
        c.display.bufaddr (x * font.width + j) (y * font.height + i)
      else c.display.lfbaddr (x * font.width + j) (y * font.height + i)) = _ := if_pos (h.fit.pixel_lt hx hy hj hi).2
    exact hpixel.trans (h.buf x hx y hy j hj i hi)
  restore h hin := h.restore hin

end Novino.Term
