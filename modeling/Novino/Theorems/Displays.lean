import Novino.Theorems.Graphics
import Novino.Theorems.Text

/-! What is seen of a console in both modes. -/

namespace Novino.Term

def Vga.seen (c : Console Vga) (i : Nat) : BitVec 16 := if c.active then c.display.memptr i else c.display.bufptr i

def Vesa.seen (c : Console Vesa) (x y : Nat) : Color :=
    if c.active then c.display.lfbaddr x y else c.display.bufaddr x y

variable {γ κ : Type} {σ : Type} {width height : BitVec 32}

def Paint.cellSeen (p : Paint γ κ) (l : Console (Logical γ κ)) (x y : Nat) : κ :=
  let cell := l.display.cells (y * l.max_x.toNat + x)
  if l.flags &&& CURSOR ≠ 0 ∧ x = l.pos_x.toNat ∧ y = l.pos_y.toNat then p.invert cell else cell

theorem Paint.cellSeen_eq {p : Paint γ κ} {l : Console (Logical γ κ)} (hl : Inside l) {x : Nat}
    (hx : x < l.max_x.toNat) (y : Nat) : at_ l.max_x.toNat (p.shown l).cells x y = p.cellSeen l x y := by
  unfold Paint.shown Paint.cellSeen
  by_cases hcursor : l.flags &&& CURSOR ≠ 0
  · rw [if_pos hcursor]
    have hcell := at_update hx hl.x l.display.cells y l.pos_y.toNat (p.invert (l.display.cells l.index))
    refine hcell.trans ?_
    by_cases hpos : x = l.pos_x.toNat ∧ y = l.pos_y.toNat
    · rw [if_pos hpos, if_pos ⟨hcursor, hpos⟩, hpos.1, hpos.2]
      rfl
    · rw [if_neg hpos, if_neg fun h => hpos h.2]
      rfl
  · rw [if_neg hcursor, if_neg fun h => hcursor h.1]
    rfl

def Restores (d : Display σ) (c : Console σ) : Prop :=
  d.toggleCursor { c with display := d.toggleCursor c } = c.display

def TextSeen (c : Console Vga) (l : Console (Logical (BitVec 8) (BitVec 16))) : Prop :=
  ∀ x < 80, ∀ y < 25, Vga.seen c (y * 80 + x) = vgaPaint.cellSeen l x y

def GraphicsSeen (font : Psf) (depth : Depth) (c : Console Vesa) (l : Console (Logical (Color × Color) Glyph)) : Prop :=
  ∀ x < c.max_x.toNat, ∀ y < c.max_y.toNat, ∀ j < font.width, ∀ i < font.height,
    Vesa.seen c (x * font.width + j) (y * font.height + i) =
      Vesa.paint font ((vesaPaint font depth).cellSeen l x y) j i

theorem Shows.textSeen {c : Console Vga} {l : Console (Logical (BitVec 8) (BitVec 16))}
    (h : Shows vgaPaint TextRep c l) : TextSeen c l := by
  intro x hx y hy
  have hlt := place_lt hy hx
  have hl : Inside l := h.same ▸ h.inside.of_place rfl
  have hcols : l.max_x.toNat = 80 := by
    rw [h.same]
    exact (Vga.size_eq h.rep.fit).2.2
  have hcell := Paint.cellSeen_eq (p := vgaPaint) hl (hcols.symm ▸ hx) y
  rw [hcols] at hcell
  have hbuf : c.display.bufptr (y * 80 + x) = vgaPaint.cellSeen l x y := (h.rep.buf _ hlt).trans hcell
  unfold Vga.seen
  split
  · rename_i hactive
    rw [h.rep.mem hactive _ hlt, hbuf]
  · exact hbuf

theorem Shows.graphicsSeen {font : Psf} {depth : Depth} {c : Console Vesa} {l : Console (Logical (Color × Color) Glyph)}
    (h : Shows (vesaPaint font depth) (GraphicsRep font depth) c l) : GraphicsSeen font depth c l := by
  intro x hx y hy j hj i hi
  have hl : Inside l := h.same ▸ h.inside.of_place rfl
  have hcols : l.max_x = c.max_x := by rw [h.same]; rfl
  have hcell := Paint.cellSeen_eq (p := vesaPaint font depth) hl (hcols ▸ hx) y
  rw [hcols] at hcell
  rw [← hcell]
  unfold Vesa.seen
  split
  · rename_i hactive
    exact h.rep.lfb hactive x hx y hy j hj i hi
  · exact h.rep.buf x hx y hy j hj i hi

theorem zapLight_blank (i : Nat) : zapLight.row 32 i = 0 := by
  have hglyph : zapLightGlyphs.getD 32 0 = 0 := by decide
  show BitVec.ofNat 32 (zapLightGlyphs.getD 32 0 >>> (8 * (15 - i)) % 256) = 0
  rw [hglyph, Nat.zero_shiftRight]
  rfl

theorem vesaInit_inside (depth : Depth) (flags : BitVec 32) (active : Bool)
    (glyphs : Nat → Glyph) (buf lfb : Pixels) (hwidth : 64 ≤ width.toNat) (hheight : 16 ≤ height.toNat) :
    Inside (vesaInit zapLight depth width height flags active glyphs buf lfb) := by
  have hcols : (width / 8).toNat = width.toNat / 8 := BitVec.toNat_udiv
  have hrows : (height / 16).toNat = height.toNat / 16 := BitVec.toNat_udiv
  refine ⟨?_, ?_, ?_⟩
  · show 8 ≤ (width / 8).toNat
    omega
  · show 0 < (width / 8).toNat
    omega
  · show 0 < (height / 16).toNat
    omega

theorem vesaInit_fit (depth : Depth) (width height flags : BitVec 32) (active : Bool) (glyphs : Nat → Glyph)
    (buf lfb : Pixels) :
    GraphicsFit zapLight depth (vesaInit zapLight depth width height flags active glyphs buf lfb)
      (vesaEncodeColor 0xFFFFFF depth, vesaEncodeColor 0x000000 depth) := by
  have hcols : (width / 8).toNat = width.toNat / 8 := BitVec.toNat_udiv
  have hrows : (height / 16).toNat = height.toNat / 16 := BitVec.toNat_udiv
  refine ⟨rfl, rfl, ?_, ?_⟩
  · show (width / 8).toNat * 8 ≤ width.toNat
    omega
  · show (height / 16).toNat * 16 ≤ height.toNat
    omega

def cleared (p : Paint γ κ) (c : Console σ) (l : Logical γ κ) : Console (Logical γ κ) :=
  (c.on l).clear p.display

theorem vga_shows (flags : BitVec 32) (active : Bool) (buf mem : Nat → BitVec 16) (ops : List ConsoleOp) :
    Shows vgaPaint TextRep (ops.foldl (Console.step vga) ((vgaInit flags active buf mem).clear vga))
      (ops.foldl (Console.step vgaPaint.display) (cleared vgaPaint (vgaInit flags active buf mem) ⟨0x0F, buf⟩)) := by
  have hin : Inside (vgaInit flags active buf mem) :=
    ⟨show 8 ≤ (80 : BitVec 32).toNat by decide, show (0 : BitVec 32) < 80 by decide,
      show (0 : BitVec 32) < 25 by decide⟩
  have hfit : TextFit (vgaInit flags active buf mem) 0x0F := ⟨rfl, rfl, rfl⟩
  exact vga_draws.run (l := ⟨0x0F, buf⟩) hfit hin fun op _ => drawn_true op

theorem vesa_shows (depth : Depth) (flags : BitVec 32) (active : Bool)
    (glyphs : Nat → Glyph) (buf lfb : Pixels) (hwidth : 64 ≤ width.toNat) (hheight : 16 ≤ height.toNat)
    {ops : List ConsoleOp} (hok : ∀ op ∈ ops, Drawn (Redrawn zapLight) op) :
    let c₀ := vesaInit zapLight depth width height flags active glyphs buf lfb
    Shows (vesaPaint zapLight depth) (GraphicsRep zapLight depth)
      (ops.foldl (Console.step (vesa zapLight)) (c₀.clear (vesa zapLight)))
      (ops.foldl (Console.step (vesaPaint zapLight depth).display)
        (cleared (vesaPaint zapLight depth) c₀ ⟨(c₀.display.fg, c₀.display.bg), glyphs⟩)) :=
  (vesa_draws zapLight_blank).run (l := ⟨_, glyphs⟩) (vesaInit_fit depth width height flags active glyphs buf lfb)
    (vesaInit_inside depth flags active glyphs buf lfb hwidth hheight) hok

/-- After any operations on a console, what is displayed are the cells that the operations are meant to give, with the
cursor on them: in text mode for all characters, and in graphics mode for those whose glyph is drawn again by its
number. -/
theorem displays_cells (flags : BitVec 32) (active : Bool) (ops : List ConsoleOp) :
    (∀ buf mem : Nat → BitVec 16,
      let c₀ := vgaInit flags active buf mem
      let c := ops.foldl (Console.step vga) (c₀.clear vga)
      let l := ops.foldl (Console.step vgaPaint.display) (cleared vgaPaint c₀ ⟨c₀.display.attr, buf⟩)
      TextSeen c l ∧ Restores vga c) ∧
    ∀ (depth : Depth) (width height : BitVec 32) (glyphs : Nat → Glyph) (buf lfb : Pixels),
      64 ≤ width.toNat → 16 ≤ height.toNat → (∀ op ∈ ops, Drawn (Redrawn zapLight) op) →
      let c₀ := vesaInit zapLight depth width height flags active glyphs buf lfb
      let c := ops.foldl (Console.step (vesa zapLight)) (c₀.clear (vesa zapLight))
      let l := ops.foldl (Console.step (vesaPaint zapLight depth).display)
        (cleared (vesaPaint zapLight depth) c₀ ⟨(c₀.display.fg, c₀.display.bg), glyphs⟩)
      GraphicsSeen zapLight depth c l ∧ Restores (vesa zapLight) c := by
  constructor
  · intro buf mem
    have hshows := vga_shows flags active buf mem ops
    exact ⟨hshows.textSeen, vga_draws.restore hshows.rep hshows.inside⟩
  · intro depth width height glyphs buf lfb hwidth hheight hok
    have hshows := vesa_shows depth flags active glyphs buf lfb hwidth hheight hok
    exact ⟨hshows.graphicsSeen, (vesa_draws zapLight_blank).restore hshows.rep hshows.inside⟩

def panel : Console Vesa := vesaInit zapLight .bits32 64 16 0 true (fun _ => ⟨0, [], []⟩) (fun _ _ => []) fun _ _ => []

def panelLogical : Console (Logical (Color × Color) Glyph) :=
  cleared (vesaPaint zapLight .bits32) panel ⟨(panel.display.fg, panel.display.bg), fun _ => ⟨0, [], []⟩⟩

def backOnto (ch : BitVec 32) : List ConsoleOp := [.setFlags CURSOR, .putch ch, .putch 8, .setFlags 0]

theorem displays_cells_backOnto :
    let c := (backOnto 0x41).foldl (Console.step (vesa zapLight)) (panel.clear (vesa zapLight))
    GraphicsSeen zapLight .bits32 c
      ((backOnto 0x41).foldl (Console.step (vesaPaint zapLight .bits32).display) panelLogical) ∧
    Restores (vesa zapLight) c := by
  refine (displays_cells 0 true (backOnto 0x41)).2 .bits32 64 16 _ _ _ (by decide) (by decide) ?_
  intro op hop
  simp only [backOnto, List.mem_cons, List.not_mem_nil, or_false] at hop
  rcases hop with rfl | rfl | rfl | rfl
  · trivial
  · exact fun _ => rfl
  · exact fun _ => rfl
  · trivial

/-- The letter A with a grave accent is glyph 128, which the cursor takes for a character without a glyph: it leaves the
replacement character behind. -/
theorem glyph_replaced :
    let c := (backOnto 0xC0).foldl (Console.step (vesa zapLight)) (panel.clear (vesa zapLight))
    let l := (backOnto 0xC0).foldl (Console.step (vesaPaint zapLight .bits32).display) panelLogical
    (l.display.cells 0).ch = 128 ∧ (c.display.glyphs 0).ch = 0 ∧ ¬GraphicsSeen zapLight .bits32 c l := by
  refine ⟨by decide +kernel, by decide +kernel, fun h => ?_⟩
  have hpixel := h 0 (by decide +kernel) 0 (by decide +kernel) 2 (by decide) 0 (by decide)
  revert hpixel
  decide +kernel

end Novino.Term
