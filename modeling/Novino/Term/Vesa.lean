import Novino.Term.Console
import Novino.Term.Psf

/-! Graphics mode (`kernel/term/vesa.c`). The buffer of the console and the framebuffer are pixels, each with the bytes
    that are stored for its colour; coordinates do not overflow. The spaces between glyphs are 0 throughout. -/

namespace Novino.Term

inductive Depth
  | bits15 | bits16 | bits24 | bits32
deriving DecidableEq, Repr

abbrev Color := List (BitVec 8)

/-- `vesa_encode_color`. The fourth byte of `data` is never set and stays 0. -/
def vesaEncodeColor (color : BitVec 32) : Depth → Color
  | .bits15 =>
    let blue := (color >>> 3 &&& 0x1F).setWidth 8
    let green := (color >>> 11 &&& 0x1F).setWidth 8
    let red := (color >>> 19 &&& 0x1F).setWidth 8
    [green <<< 5 ||| blue, red <<< 2 ||| green >>> 3]
  | .bits16 =>
    let blue := (color >>> 3 &&& 0x1F).setWidth 8
    let green := (color >>> 10 &&& 0x3F).setWidth 8
    let red := (color >>> 19 &&& 0x1F).setWidth 8
    [green <<< 5 ||| blue, red <<< 3 ||| green >>> 3]
  | .bits24 => [color.setWidth 8, (color >>> 8).setWidth 8, (color >>> 16).setWidth 8]
  | .bits32 => [color.setWidth 8, (color >>> 8).setWidth 8, (color >>> 16).setWidth 8, 0]

def vesaColors : List (BitVec 32) :=
  [0x000000, 0x0000C0, 0x00C000, 0x00C0C0, 0xC00000, 0xC000C0, 0xC08000, 0xC0C0C0,
    0x808080, 0x0000FF, 0x00FF00, 0x00FFFF, 0xFF0000, 0xFF00FF, 0xFFFF00, 0xFFFFFF]

structure Glyph where
  ch : BitVec 32
  fg : Color
  bg : Color
deriving DecidableEq, Repr

abbrev Pixels := Nat → Nat → Color

def putpixel (buf : Pixels) (x y : Nat) (color : Color) : Pixels :=
  fun x' y' => if x' = x ∧ y' = y then color else buf x' y'

def drawLine (buf : Pixels) (x0 x1 y : Nat) (color : Color) : Pixels :=
  fun x' y' => if (x0 ≤ x' ∧ x' < x1) ∧ y' = y then color else buf x' y'

def copyBlock (dst src : Pixels) (x0 x1 y0 y1 : Nat) : Pixels :=
  fun x y => if (x0 ≤ x ∧ x < x1) ∧ (y0 ≤ y ∧ y < y1) then src x y else dst x y

/-- The graphics display: the buffer in memory, and the frame buffer that is shown. -/
structure Vesa where
  depth : Depth
  width : Nat
  height : Nat
  fg : Color
  bg : Color
  glyphs : Nat → Glyph
  bufaddr : Pixels
  lfbaddr : Pixels

namespace Vesa

variable (font : Psf)

def glyphOf (ch : BitVec 32) : BitVec 32 := if BitVec.slt 127 ch then font.psfUnicode ch else ch

def paint (g : Glyph) (j i : Nat) : Color :=
  if font.row g.ch.toNat i &&& (1 <<< (font.width - 1)) >>> j ≠ 0 then g.fg else g.bg

def drawRow (g : Glyph) (x0 y0 i : Nat) (buf : Pixels) : Pixels :=
  (List.range font.width).foldl (fun buf j => putpixel buf (x0 + j) (y0 + i) (paint font g j i)) buf

def drawGlyph (g : Glyph) (x0 y0 : Nat) (buf : Pixels) : Pixels :=
  (List.range font.height).foldl (fun buf i => drawRow font g x0 y0 i buf) buf

variable (c : Console Vesa)

def flushBlock (buf : Pixels) (x0 x1 y0 y1 : Nat) : Pixels :=
  if c.active then copyBlock c.display.lfbaddr buf x0 x1 y0 y1 else c.display.lfbaddr

def pos : Nat := c.pos_x.toNat + c.pos_y.toNat * c.max_x.toNat

def putch (ch : BitVec 32) : Vesa :=
  let g : Glyph := ⟨glyphOf font ch, c.display.fg, c.display.bg⟩
  let x0 := c.pos_x.toNat * font.width
  let y0 := c.pos_y.toNat * font.height
  let buf := drawGlyph font g x0 y0 c.display.bufaddr
  { c.display with
    bufaddr := buf
    lfbaddr := flushBlock c buf x0 (x0 + font.width) y0 (y0 + font.height)
    glyphs := Function.update c.display.glyphs (pos c) g }

def toggleCursor : Vesa :=
  let glyph := c.display.glyphs (pos c)
  { putch font { c with display := { c.display with fg := glyph.bg, bg := glyph.fg } } glyph.ch with
    fg := c.display.fg
    bg := c.display.bg }

def scroll : Vesa :=
  let rows := font.height * (c.max_y.toNat - 1)
  let buf : Pixels := fun x y => if y < rows then c.display.bufaddr x (y + font.height) else c.display.bufaddr x y
  let buf := (List.range' rows (c.display.height - rows)).foldl
    (fun buf y => drawLine buf 0 c.display.width y c.display.bg) buf
  let size := c.max_x.toNat * (c.max_y.toNat - 1)
  { c.display with
    bufaddr := buf
    lfbaddr := if c.active then fun x y => if y < c.display.height then buf x y else c.display.lfbaddr x y
      else c.display.lfbaddr
    glyphs := fun i =>
      if i < size then c.display.glyphs (i + c.max_x.toNat)
      else if i < size + c.max_x.toNat then ⟨32, c.display.fg, c.display.bg⟩
      else c.display.glyphs i }

def clear : Vesa :=
  let buf := (List.range c.display.height).foldl
    (fun buf y => drawLine buf 0 c.display.width y c.display.bg) c.display.bufaddr
  { c.display with
    bufaddr := buf
    lfbaddr := flushBlock c buf 0 c.display.width 0 c.display.height
    glyphs := fun i =>
      if i < c.max_x.toNat * c.max_y.toNat then ⟨32, c.display.fg, c.display.bg⟩ else c.display.glyphs i }

def recolour (depth : Depth) (colors : Color × Color) (fg bg : BitVec 32) : Color × Color :=
  (if BitVec.sle 0 fg ∧ BitVec.sle fg 15 then vesaEncodeColor (vesaColors.getD fg.toNat 0) depth else colors.1,
    if BitVec.sle 0 bg ∧ BitVec.sle bg 15 then vesaEncodeColor (vesaColors.getD bg.toNat 0) depth else colors.2)

def setColor (fg bg : BitVec 32) : Vesa :=
  let (fg, bg) := recolour c.display.depth (c.display.fg, c.display.bg) fg bg
  { c.display with fg, bg }

def refresh : Vesa :=
  { c.display with
    lfbaddr := if c.active then fun x y =>
        if y < c.display.height then c.display.bufaddr x y else c.display.lfbaddr x y
      else c.display.lfbaddr }

end Vesa

def vesa (font : Psf) : Display Vesa where
  putch := Vesa.putch font
  scroll := Vesa.scroll font
  clear := Vesa.clear
  toggleCursor := Vesa.toggleCursor font
  setColor := Vesa.setColor
  refresh := Vesa.refresh

def vesaInit (font : Psf) (depth : Depth) (width height flags : BitVec 32) (active : Bool) (glyphs : Nat → Glyph)
    (bufaddr lfbaddr : Pixels) : Console Vesa where
  flags
  pos_x := 0
  pos_y := 0
  max_x := width / BitVec.ofNat 32 font.width
  max_y := height / BitVec.ofNat 32 font.height
  active
  display :=
    { depth, width := width.toNat, height := height.toNat, fg := vesaEncodeColor 0xFFFFFF depth,
      bg := vesaEncodeColor 0x000000 depth, glyphs, bufaddr, lfbaddr }

end Novino.Term
