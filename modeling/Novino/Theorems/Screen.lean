import Novino.Term.Logical
import Novino.Theorems.Cursor

/-! A display shows the cells of its console with the cursor, if each of its functions does on the cells what it is
    meant to do (`Draws`). -/

namespace Novino.Term

open Steps

variable {σ τ γ κ : Type} {d : Display σ} {p : Paint γ κ} {ok : BitVec 32 → Prop}
  {Fit : Console σ → γ → Prop} {Rep : Console σ → Logical γ κ → Prop} {c : Console σ} {l : Logical γ κ}

def Console.on (c : Console σ) (display : τ) : Console τ :=
  { flags := c.flags, pos_x := c.pos_x, pos_y := c.pos_y, max_x := c.max_x, max_y := c.max_y, active := c.active,
    display }

/-- What a display has to do: `Rep c l` says that it shows the cells `l`, `Fit c g` that the console has a size and the
colour `g`, and `ok` holds for the characters that it can draw. -/
structure Draws (d : Display σ) (p : Paint γ κ) (ok : BitVec 32 → Prop) (Fit : Console σ → γ → Prop)
    (Rep : Console σ → Logical γ κ → Prop) : Prop where
  frame : ∀ {c c' : Console σ} {l}, Rep c l → c'.max_x = c.max_x → c'.max_y = c.max_y → c'.active = c.active →
    c'.display = c.display → Rep c' l
  putch : ∀ {c l}, Rep c l → Inside c → ∀ {ch}, ok ch →
    Rep { c with display := d.putch c ch } { l with cells := Function.update l.cells c.index (p.cell l.colour ch) }
  toggle : ∀ {c l}, Rep c l → Inside c → Rep { c with display := d.toggleCursor c } (p.inverted l c.index)
  scroll : ∀ {c l}, Rep c l → 0 < c.max_y → Rep { c with display := d.scroll c } (p.display.scroll (c.on l))
  fit : ∀ {c l}, Rep c l → Fit c l.colour
  clear : ∀ {c g}, Fit c g → Rep { c with pos_x := 0, pos_y := 0, display := d.clear { c with pos_x := 0, pos_y := 0 } }
    ⟨g, fun _ => p.blank g⟩
  setColor : ∀ {c l}, Rep c l → ∀ fg bg,
    Rep { c with display := d.setColor c fg bg } { l with colour := p.recolour l.colour fg bg }
  hide : ∀ {c l}, Rep c l → Rep { c with active := false } l
  refresh : ∀ {c l}, Rep c l → Rep { c with active := true, display := d.refresh { c with active := true } } l
  restore : ∀ {c l}, Rep c l → Inside c → d.toggleCursor { c with display := d.toggleCursor c } = c.display

structure Plain (Rep : Console σ → Logical γ κ → Prop) (c : Console σ) (l : Console (Logical γ κ)) : Prop where
  same : l = c.on l.display
  inside : Inside c
  rep : Rep c l.display

structure Shows (p : Paint γ κ) (Rep : Console σ → Logical γ κ → Prop) (c : Console σ)
    (l : Console (Logical γ κ)) : Prop where
  same : l = c.on l.display
  inside : Inside c
  rep : Rep c (p.shown l)

theorem Paint.inverted_inverted (l : Logical γ κ) (i : Nat) : p.inverted (p.inverted l i) i = l := by
  unfold Paint.inverted
  simp only [Function.update_idem, Function.update_self, p.invert_invert, Function.update_eq_self]

theorem toggleCursor_display (l : Console (Logical γ κ)) : l.toggleCursor p.display = l := by
  unfold Console.toggleCursor
  split <;> rfl

theorem shown_on (l : Logical γ κ) :
    p.shown (c.on l) = if c.flags &&& CURSOR ≠ 0 then p.inverted l c.index else l := rfl

theorem and_cursor (flags : BitVec 32) : flags &&& CURSOR ≠ 0 ↔ flags.getLsbD 3 = true := by
  rw [show CURSOR = BitVec.twoPow 32 3 by decide, BitVec.and_twoPow]
  cases flags.getLsbD 3 <;> decide

theorem xor_cursor (flags flags' : BitVec 32) :
    (flags ^^^ flags') &&& CURSOR ≠ 0 ↔ ¬(flags &&& CURSOR ≠ 0 ↔ flags' &&& CURSOR ≠ 0) := by
  rw [and_cursor, and_cursor, and_cursor, BitVec.getLsbD_xor]
  cases flags.getLsbD 3 <;> cases flags'.getLsbD 3 <;> decide

namespace Draws

variable (hd : Draws d p ok Fit Rep) {ch : BitVec 32} {str : List (BitVec 8)}

include hd

theorem remove {l : Console (Logical γ κ)} (h : Shows p Rep c l) : Plain Rep (c.toggleCursor d) l := by
  obtain ⟨hsame, hin, hrep⟩ := h
  have hin' : Inside (c.toggleCursor d) := hin.toggleCursor
  generalize l.display = ld at hsame
  subst hsame
  rw [shown_on] at hrep
  unfold Console.toggleCursor at hin' ⊢
  by_cases hcursor : c.flags &&& CURSOR ≠ 0
  · rw [if_pos hcursor] at hrep hin' ⊢
    have htoggle := hd.toggle hrep hin
    rw [Paint.inverted_inverted] at htoggle
    exact ⟨rfl, hin', htoggle⟩
  · rw [if_neg hcursor] at hrep ⊢
    exact ⟨rfl, hin, hrep⟩

theorem draw {l : Console (Logical γ κ)} (h : Plain Rep c l) : Shows p Rep (c.toggleCursor d) l := by
  obtain ⟨hsame, hin, hrep⟩ := h
  have hin' : Inside (c.toggleCursor d) := hin.toggleCursor
  generalize l.display = ld at hsame hrep
  subst hsame
  unfold Console.toggleCursor at hin' ⊢
  by_cases hcursor : c.flags &&& CURSOR ≠ 0
  · rw [if_pos hcursor] at hin' ⊢
    refine ⟨rfl, hin', ?_⟩
    rw [shown_on, if_pos hcursor]
    exact hd.toggle hrep hin
  · rw [if_neg hcursor]
    refine ⟨rfl, hin, ?_⟩
    rw [shown_on, if_neg hcursor]
    exact hrep

theorem advance (hrep : Rep c l) (hin : Inside c) (hok : BitVec.sle 0x10 ch → ok ch) :
    ∃ l', (c.on l).advance p.display ch = (c.advance d ch).on l' ∧ Rep (c.advance d ch) l' := by
  unfold Console.advance
  by_cases hnl : ch = 10
  · rw [if_pos hnl, if_pos hnl]
    exact ⟨l, rfl, hd.frame hrep rfl rfl rfl rfl⟩
  rw [if_neg hnl, if_neg hnl]
  by_cases hbs : ch = 8
  · rw [if_pos hbs, if_pos hbs]
    by_cases hx : 0 < c.pos_x
    · rw [if_pos hx, if_pos (show 0 < (c.on l).pos_x from hx)]
      exact ⟨l, rfl, hd.frame hrep rfl rfl rfl rfl⟩
    rw [if_neg hx, if_neg (show ¬0 < (c.on l).pos_x from hx)]
    by_cases hy : 0 < c.pos_y
    · rw [if_pos hy, if_pos (show 0 < (c.on l).pos_y from hy)]
      exact ⟨l, rfl, hd.frame hrep rfl rfl rfl rfl⟩
    · rw [if_neg hy, if_neg (show ¬0 < (c.on l).pos_y from hy)]
      exact ⟨l, rfl, hrep⟩
  rw [if_neg hbs, if_neg hbs]
  by_cases hcr : ch = 13
  · rw [if_pos hcr, if_pos hcr]
    exact ⟨l, rfl, hd.frame hrep rfl rfl rfl rfl⟩
  rw [if_neg hcr, if_neg hcr]
  by_cases htab : ch = 9
  · rw [if_pos htab, if_pos htab]
    by_cases hend : c.max_x ≤ (c.pos_x + 8) &&& 0xFFF8
    · refine ⟨l, ?_, hd.frame hrep ?_ ?_ ?_ ?_⟩
      all_goals simp only [Console.on, hend, if_true]
    · refine ⟨l, ?_, hd.frame hrep ?_ ?_ ?_ ?_⟩
      all_goals simp only [Console.on, hend, if_false]
  rw [if_neg htab, if_neg htab]
  by_cases hdraw : BitVec.sle 0x10 ch
  · rw [if_pos hdraw, if_pos hdraw]
    have hput := hd.putch hrep hin (hok hdraw)
    refine ⟨_, ?_, hd.frame hput ?_ ?_ ?_ ?_⟩
    all_goals
      by_cases hend : c.pos_x + 1 = c.max_x
      all_goals simp only [Console.on, hend, if_true, if_false]
    all_goals rfl
  · rw [if_neg hdraw, if_neg hdraw]
    exact ⟨l, rfl, hrep⟩

theorem scroll_on (hrep : Rep c l) (hrows : 0 < c.max_y) :
    ∃ l', (c.on l).scroll p.display = (c.scroll d).on l' ∧ Rep (c.scroll d) l' := by
  unfold Console.scroll
  by_cases hy : c.pos_y < c.max_y
  · rw [if_pos hy, if_pos (show (c.on l).pos_y < (c.on l).max_y from hy)]
    exact ⟨l, rfl, hrep⟩
  rw [if_neg hy, if_neg (show ¬(c.on l).pos_y < (c.on l).max_y from hy)]
  by_cases hscroll : c.flags &&& NOSCRL = 0
  · refine ⟨p.display.scroll (c.on l), ?_, ?_⟩
    · simp only [Console.on, hscroll, if_true]
    · simp only [hscroll, if_true]
      exact hd.frame (hd.scroll hrep hrows) rfl rfl rfl rfl
  · refine ⟨l, ?_, ?_⟩
    · simp only [Console.on, hscroll, if_false]
    · simp only [hscroll, if_false]
      exact hd.frame hrep rfl rfl rfl rfl

theorem putchar {l : Console (Logical γ κ)} (h : Plain Rep c l)
    (hok : BitVec.sle 0x10 ch → ok ch) : Plain Rep (c.putchar d ch) (l.putchar p.display ch) := by
  obtain ⟨hsame, hin, hrep⟩ := h
  generalize l.display = ld at hsame hrep
  subst hsame
  obtain ⟨l₁, hadvance, hrep₁⟩ := hd.advance hrep hin hok
  have hbelow : Below (c.advance d ch) := hin.advance ch
  obtain ⟨l₂, hscroll, hrep₂⟩ := hd.scroll_on hrep₁ hbelow.rows
  have hputchar : (c.on ld).putchar p.display ch = (c.putchar d ch).on l₂ := by
    unfold Console.putchar
    rw [hadvance, hscroll]
  rw [hputchar]
  exact ⟨rfl, hbelow.scroll, hrep₂⟩

theorem putch_shows {l : Console (Logical γ κ)} (h : Shows p Rep c l)
    (hok : BitVec.sle 0x10 ch → ok ch) : Shows p Rep (c.putch d ch) (l.putch p.display ch) := by
  unfold Console.putch
  rw [toggleCursor_display, toggleCursor_display]
  exact hd.draw (hd.putchar (hd.remove h) hok)

theorem foldl_putchar {l : Console (Logical γ κ)} (h : Plain Rep c l)
    (hok : ∀ ch ∈ str, BitVec.sle 0x10 (ch.signExtend 32) → ok (ch.signExtend 32)) :
    Plain Rep (str.foldl (fun c ch => c.putchar d (ch.signExtend 32)) c)
      (str.foldl (fun l ch => l.putchar p.display (ch.signExtend 32)) l) := by
  induction str generalizing c l with
  | nil => exact h
  | cons ch str ih =>
    have hrest : ∀ ch ∈ str, BitVec.sle 0x10 (ch.signExtend 32) → ok (ch.signExtend 32) :=
      fun ch hch => hok ch (List.mem_cons_of_mem _ hch)
    exact ih (hd.putchar h (hok ch List.mem_cons_self)) hrest

theorem puts_shows {l : Console (Logical γ κ)} (h : Shows p Rep c l)
    (hok : ∀ ch ∈ str, BitVec.sle 0x10 (ch.signExtend 32) → ok (ch.signExtend 32)) :
    Shows p Rep (c.puts d str) (l.puts p.display str) := by
  unfold Console.puts
  rw [toggleCursor_display, toggleCursor_display]
  apply hd.draw
  exact hd.foldl_putchar (hd.remove h) hok

theorem moveCursor_shows {l : Console (Logical γ κ)} (h : Shows p Rep c l) (x y : BitVec 32) (rela : Bool) :
    Shows p Rep (c.moveCursor d x y rela) (l.moveCursor p.display x y rela) := by
  have hplain := hd.remove h
  have hin : Inside (c.moveCursor d x y rela) := h.inside.moveCursor x y rela
  unfold Console.moveCursor at hin ⊢
  rw [toggleCursor_display, toggleCursor_display]
  apply hd.draw
  generalize c.toggleCursor d = c at hplain hin
  obtain ⟨hsame, -, hrep⟩ := hplain
  generalize l.display = ld at hsame hrep
  subst hsame
  exact ⟨rfl, hin.of_place toggleCursor_place.symm, hd.frame hrep rfl rfl rfl rfl⟩

theorem fit_shown (hrep : Rep c (p.shown (c.on l))) : Fit c l.colour := by
  have hfit := hd.fit hrep
  rw [shown_on] at hfit
  split at hfit <;> exact hfit

theorem clear_shows (hfit : Fit c l.colour) (hin : Inside c) :
    Shows p Rep (c.clear d) ((c.on l).clear p.display) := by
  have hin' : Inside (c.clear d) := hin.clear
  unfold Console.clear at hin' ⊢
  rw [toggleCursor_display]
  have hclear := hd.clear hfit
  exact hd.draw ⟨rfl, hin'.of_place toggleCursor_place.symm, hclear⟩

theorem setFlags_shows {l : Console (Logical γ κ)} (h : Shows p Rep c l) (flags : BitVec 32) :
    Shows p Rep (c.setFlags d flags) (l.setFlags p.display flags) := by
  have hremove := hd.remove h
  obtain ⟨hsame, hin, hrep⟩ := h
  generalize l.display = ld at hsame
  subst hsame
  unfold Console.setFlags
  by_cases hchange : (flags ^^^ c.flags) &&& CURSOR ≠ 0
  · rw [if_pos hchange, if_pos (show (flags ^^^ (c.on ld).flags) &&& CURSOR ≠ 0 from hchange)]
    have hdiffer := (xor_cursor flags c.flags).mp hchange
    by_cases hset : flags &&& CURSOR ≠ 0
    · rw [if_pos hset, if_pos hset, toggleCursor_display]
      have hoff : ¬c.flags &&& CURSOR ≠ 0 := fun hon => hdiffer ⟨fun _ => hon, fun _ => hset⟩
      rw [shown_on, if_neg hoff] at hrep
      exact hd.draw ⟨rfl, hin.of_place rfl, hd.frame hrep rfl rfl rfl rfl⟩
    · rw [if_neg hset, if_neg hset, toggleCursor_display]
      obtain ⟨hsame, hin, hrep⟩ := hremove
      refine ⟨congrArg (fun l => { l with flags := flags }) hsame, hin.of_place rfl, ?_⟩
      show Rep _ (if flags &&& CURSOR ≠ 0 then _ else ld)
      rw [if_neg hset]
      exact hd.frame hrep rfl rfl rfl rfl
  · rw [if_neg hchange, if_neg (show ¬(flags ^^^ (c.on ld).flags) &&& CURSOR ≠ 0 from hchange)]
    have hequal : flags &&& CURSOR ≠ 0 ↔ c.flags &&& CURSOR ≠ 0 := by
      by_contra hdiffer
      exact hchange ((xor_cursor flags c.flags).mpr hdiffer)
    refine ⟨rfl, hin.of_place rfl, ?_⟩
    rw [shown_on] at hrep
    show Rep _ (if flags &&& CURSOR ≠ 0 then p.inverted ld c.index else ld)
    rw [if_congr hequal rfl rfl]
    exact hd.frame hrep rfl rfl rfl rfl

theorem setColor_shows {l : Console (Logical γ κ)} (h : Shows p Rep c l) (fg bg : BitVec 32) :
    Shows p Rep (c.setColor d fg bg) (l.setColor p.display fg bg) := by
  obtain ⟨hsame, hin, hrep⟩ := h
  generalize l.display = ld at hsame
  subst hsame
  refine ⟨rfl, hin.of_place rfl, ?_⟩
  have hcolor := hd.setColor hrep fg bg
  rw [shown_on] at hcolor
  show Rep _ (if c.flags &&& CURSOR ≠ 0 then p.inverted { ld with colour := p.recolour ld.colour fg bg } c.index
    else { ld with colour := p.recolour ld.colour fg bg })
  by_cases hcursor : c.flags &&& CURSOR ≠ 0
  · rw [if_pos hcursor] at hcolor ⊢
    exact hcolor
  · rw [if_neg hcursor] at hcolor ⊢
    exact hcolor

theorem select_shows {l : Console (Logical γ κ)} (h : Shows p Rep c l) (active : Bool) :
    Shows p Rep (c.step d (.select active)) (l.step p.display (.select active)) := by
  obtain ⟨hsame, hin, hrep⟩ := h
  generalize l.display = ld at hsame
  subst hsame
  cases active with
  | true =>
    have hshown := hd.refresh hrep
    exact ⟨rfl, hin.of_place rfl, hshown⟩
  | false => exact ⟨rfl, hin.of_place rfl, hd.hide hrep⟩

end Draws

def Drawn (ok : BitVec 32 → Prop) : ConsoleOp → Prop
  | .putch ch => BitVec.sle 0x10 ch → ok ch
  | .puts str => ∀ ch ∈ str, BitVec.sle 0x10 (ch.signExtend 32) → ok (ch.signExtend 32)
  | _ => True

theorem drawn_true (op : ConsoleOp) : Drawn (fun _ => True) op := by
  cases op with
  | putch ch => exact fun _ => trivial
  | puts str => exact fun _ _ _ => trivial
  | _ => trivial

section
variable (hd : Draws d p ok Fit Rep) {ops : List ConsoleOp}
include hd

theorem Draws.step {l : Console (Logical γ κ)} (h : Shows p Rep c l) {op : ConsoleOp}
    (hok : Drawn ok op) : Shows p Rep (c.step d op) (l.step p.display op) := by
  cases op with
  | putch ch => exact hd.putch_shows h hok
  | puts str => exact hd.puts_shows h hok
  | moveCursor x y rela => exact hd.moveCursor_shows h x y rela
  | clear =>
    obtain ⟨hsame, hin, hrep⟩ := h
    generalize l.display = ld at hsame
    subst hsame
    exact hd.clear_shows (hd.fit_shown hrep) hin
  | setFlags flags => exact hd.setFlags_shows h flags
  | setColor fg bg => exact hd.setColor_shows h fg bg
  | select active => exact hd.select_shows h active

theorem Draws.steps {l : Console (Logical γ κ)} (h : Shows p Rep c l)
    (hok : ∀ op ∈ ops, Drawn ok op) :
    Shows p Rep (ops.foldl (Console.step d) c) (ops.foldl (Console.step p.display) l) := by
  induction ops generalizing c l with
  | nil => exact h
  | cons op ops ih =>
    have hrest : ∀ op ∈ ops, Drawn ok op := fun op hop => hok op (List.mem_cons_of_mem _ hop)
    exact ih (hd.step h (hok op List.mem_cons_self)) hrest

theorem Draws.run (hfit : Fit c l.colour) (hin : Inside c) (hok : ∀ op ∈ ops, Drawn ok op) :
    Shows p Rep (ops.foldl (Console.step d) (c.clear d))
      (ops.foldl (Console.step p.display) ((c.on l).clear p.display)) :=
  hd.steps (hd.clear_shows hfit hin) hok

end

end Novino.Term
