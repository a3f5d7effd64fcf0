import Novino.Lib.Steps
import Novino.Term.Term

/-! The position of the cursor. What a display draws has no part in it. -/

namespace Novino.Term

variable {σ : Type} {d : Display σ} {c : Console σ} {w : Stdout σ} {v v' : Vts σ}

structure Inside (c : Console σ) : Prop where
  cols : 8 ≤ c.max_x.toNat
  x : c.pos_x < c.max_x
  y : c.pos_y < c.max_y

structure Below (c : Console σ) : Prop where
  cols : 8 ≤ c.max_x.toNat
  x : c.pos_x < c.max_x
  y : c.pos_y ≤ c.max_y
  rows : 0 < c.max_y

def Console.place (c : Console σ) : BitVec 32 × BitVec 32 × BitVec 32 × BitVec 32 :=
  (c.pos_x, c.pos_y, c.max_x, c.max_y)

theorem Inside.of_place {τ : Type} {c' : Console τ} (h : Inside c) (hp : c'.place = c.place) : Inside c' := by
  obtain ⟨hx, hy, hmx, hmy⟩ : c'.pos_x = c.pos_x ∧ c'.pos_y = c.pos_y ∧ c'.max_x = c.max_x ∧ c'.max_y = c.max_y := by
    simpa [Console.place] using hp
  exact ⟨hmx ▸ h.cols, hx ▸ hmx ▸ h.x, hy ▸ hmy ▸ h.y⟩

theorem Inside.rows (h : Inside c) : 0 < c.max_y := by
  have hy := h.y
  bv_omega

theorem Inside.below (h : Inside c) : Below c := ⟨h.cols, h.x, BitVec.le_of_lt h.y, h.rows⟩

theorem toggleCursor_place : (c.toggleCursor d).place = c.place := by
  unfold Console.toggleCursor
  split <;> rfl

theorem Below.scroll (h : Below c) : Inside (c.scroll d) := by
  have hy := h.y
  have hrows := h.rows
  have hcols := h.cols
  unfold Console.scroll
  split
  · exact ⟨h.cols, h.x, by assumption⟩
  · refine Inside.of_place (c := { c with pos_y := c.pos_y - 1, pos_x := 0 }) ⟨hcols, ?_, ?_⟩ ?_
    · show 0 < c.max_x
      bv_omega
    · show c.pos_y - 1 < c.max_y
      bv_omega
    · split <;> rfl

theorem tab_le (x : BitVec 32) : ((x + 8) &&& 0xFFF8).toNat ≤ x.toNat + 8 ∧ ((x + 8) &&& 0xFFF8).toNat ≤ 0xFFF8 := by
  rw [BitVec.toNat_and, BitVec.toNat_add]
  exact ⟨Nat.le_trans Nat.and_le_left (Nat.mod_le _ _), Nat.and_le_right⟩

section
variable (h : Inside c)
include h

theorem Inside.tab :
    Below (if c.max_x ≤ (c.pos_x + 8) &&& 0xFFF8 then
      { c with pos_x := ((c.pos_x + 8) &&& 0xFFF8) - c.max_x, pos_y := c.pos_y + 1 }
    else { c with pos_x := (c.pos_x + 8) &&& 0xFFF8 }) := by
  have hx := h.x
  have hy := h.y
  have hcols := h.cols
  have htab := (tab_le c.pos_x).1
  generalize (c.pos_x + 8) &&& 0xFFF8 = x at htab ⊢
  split
  · refine ⟨hcols, ?_, ?_, h.rows⟩
    · show x - c.max_x < c.max_x
      bv_omega
    · show c.pos_y + 1 ≤ c.max_y
      bv_omega
  · refine ⟨hcols, ?_, BitVec.le_of_lt hy, h.rows⟩
    show x < c.max_x
    bv_omega

theorem Inside.next (display : σ) :
    Below (if c.pos_x + 1 = c.max_x then { c with display := display, pos_x := 0, pos_y := c.pos_y + 1 }
    else { c with display := display, pos_x := c.pos_x + 1 }) := by
  have hx := h.x
  have hy := h.y
  have hcols := h.cols
  split
  · refine ⟨hcols, ?_, ?_, h.rows⟩
    · show 0 < c.max_x
      bv_omega
    · show c.pos_y + 1 ≤ c.max_y
      bv_omega
  · refine ⟨hcols, ?_, BitVec.le_of_lt hy, h.rows⟩
    show c.pos_x + 1 < c.max_x
    bv_omega

theorem Inside.advance (ch : BitVec 32) : Below (c.advance d ch) := by
  have hx := h.x
  have hy := h.y
  have hcols := h.cols
  unfold Console.advance
  by_cases hnl : ch = 10
  · rw [if_pos hnl]
    refine ⟨hcols, ?_, ?_, h.rows⟩
    · show 0 < c.max_x
      bv_omega
    · show c.pos_y + 1 ≤ c.max_y
      bv_omega
  rw [if_neg hnl]
  by_cases hbs : ch = 8
  · rw [if_pos hbs]
    split
    · refine ⟨hcols, ?_, BitVec.le_of_lt hy, h.rows⟩
      show c.pos_x - 1 < c.max_x
      bv_omega
    · split
      · refine ⟨hcols, ?_, ?_, h.rows⟩
        · show c.max_x - 1 < c.max_x
          bv_omega
        · show c.pos_y - 1 ≤ c.max_y
          bv_omega
      · exact h.below
  rw [if_neg hbs]
  by_cases hcr : ch = 13
  · rw [if_pos hcr]
    refine ⟨hcols, ?_, BitVec.le_of_lt hy, h.rows⟩
    show 0 < c.max_x
    bv_omega
  rw [if_neg hcr]
  by_cases htab : ch = 9
  · rw [if_pos htab]
    exact h.tab
  rw [if_neg htab]
  split
  · exact h.next (d.putch c ch)
  · exact h.below

theorem Inside.putchar (ch : BitVec 32) : Inside (c.putchar d ch) := (h.advance ch).scroll

theorem Inside.toggleCursor : Inside (c.toggleCursor d) := h.of_place toggleCursor_place

theorem Inside.putch (ch : BitVec 32) : Inside (c.putch d ch) :=
  (h.toggleCursor.putchar ch).toggleCursor

end

theorem clamp_lt {max : BitVec 32} (hmax : 0 < max) (x : BitVec 32) : clamp max x < max := by
  unfold clamp
  split
  · exact hmax
  · split <;> bv_omega

theorem Inside.moveCursor (h : Inside c) (x y : BitVec 32) (rela : Bool) : Inside (c.moveCursor d x y rela) := by
  have ht : Inside (c.toggleCursor d) := h.toggleCursor
  have hcols : 0 < (c.toggleCursor d).max_x := by
    have := ht.cols
    bv_omega
  refine Inside.toggleCursor ⟨ht.cols, ?_, ?_⟩
  · exact clamp_lt hcols _
  · exact clamp_lt ht.rows _

theorem Inside.setFlags (h : Inside c) (flags : BitVec 32) : Inside (c.setFlags d flags) := by
  unfold Console.setFlags
  split
  · split
    · exact Inside.toggleCursor (h.of_place rfl)
    · exact Inside.of_place (h.toggleCursor (d := d)) rfl
  · exact h.of_place rfl

theorem Inside.clear (h : Inside c) : Inside (c.clear d) := by
  have hcols := h.cols
  refine Inside.toggleCursor ⟨hcols, ?_, h.rows⟩
  show 0 < c.max_x
  bv_omega

theorem Inside.step (h : Inside c) (op : ConsoleOp) : Inside (c.step d op) := by
  cases op with
  | putch ch => exact h.putch ch
  | puts str => exact Inside.toggleCursor (List.foldlRecOn str _ h.toggleCursor fun _ h ch _ => h.putchar _)
  | moveCursor x y rela => exact h.moveCursor x y rela
  | clear => exact h.clear
  | setFlags flags => exact h.setFlags flags
  | setColor fg bg => exact h.of_place rfl
  | select active => cases active <;> exact h.of_place rfl

theorem handleAnsiEscape_cases {P : Console σ → Prop} (hnone : P c) (hclear : P (c.clear d))
    (hmove : ∀ x y rela, P (c.moveCursor d x y rela)) (hcolor : ∀ fg bg, P (c.setColor d fg bg)) (ch a b : BitVec 32) :
    P (handleAnsiEscape d c ch a b) := by
  unfold handleAnsiEscape
  by_cases hJ : ch = 0x4A
  · rw [if_pos hJ]
    by_cases ha : a = 2
    · rw [if_pos ha]
      exact hclear
    · rw [if_neg ha]
      exact hnone
  rw [if_neg hJ]
  by_cases hA : ch = 0x41
  · rw [if_pos hA]
    exact hmove ..
  rw [if_neg hA]
  by_cases hB : ch = 0x42
  · rw [if_pos hB]
    exact hmove ..
  rw [if_neg hB]
  by_cases hC : ch = 0x43
  · rw [if_pos hC]
    exact hmove ..
  rw [if_neg hC]
  by_cases hD : ch = 0x44
  · rw [if_pos hD]
    exact hmove ..
  rw [if_neg hD]
  by_cases hE : ch = 0x45
  · rw [if_pos hE]
    exact hmove ..
  rw [if_neg hE]
  by_cases hF : ch = 0x46
  · rw [if_pos hF]
    exact hmove ..
  rw [if_neg hF]
  by_cases hH : ch = 0x48
  · rw [if_pos hH]
    exact hmove ..
  rw [if_neg hH]
  by_cases hm : ch = 0x6D
  · rw [if_pos hm]
    exact hcolor ..
  · rw [if_neg hm]
    exact hnone

theorem Inside.feed (h : Inside w.console) (ch : BitVec 32) : Inside (w.feed d ch).console := by
  unfold Stdout.feed
  split
  · split
    · exact handleAnsiEscape_cases h h.clear h.moveCursor (fun fg bg => h.of_place rfl) ..
    · split <;> exact h
  · split
    · exact h
    · split
      · exact h
      · exact h.putch ch

theorem Inside.after (h : Inside w.console) (rest : List (BitVec 8)) (n : Nat) :
    Inside (w.after d rest n).console := by
  induction n generalizing w rest with
  | zero => exact h
  | succ n ih =>
    unfold Stdout.after Stdout.pass
    cases hch : Libc.mbtowc rest with
    | none => exact h
    | some r => exact ih (h.feed r.1) _

theorem Inside.loop {w' : Stdout σ} {rest : List (BitVec 8)} {n : Nat} (h : Inside w.console)
    (hl : w.loop d rest n = some w') : Inside w'.console := by
  induction n generalizing w rest with
  | zero =>
    cases hl
    exact h
  | succ n ih =>
    unfold Stdout.loop Stdout.pass at hl
    cases hch : Libc.mbtowc rest with
    | none =>
      rw [hch] at hl
      cases hl
      exact h
    | some r =>
      rw [hch] at hl
      dsimp only at hl
      split at hl
      · cases hl
      · exact ih (h.feed r.1) hl

theorem Inside.start (h : Inside v.console) : Inside (v.start d).console := by
  unfold Vts.start
  split
  · exact h.setFlags _
  · exact h

theorem Inside.written (h : Inside v.console) {seq : List (BitVec 8)}
    (hw : termStdout d v seq = some v') : Inside v'.console := by
  obtain ⟨w, hloop, rfl⟩ := Option.map_eq_some_iff.mp hw
  have hw := h.start.loop hloop
  unfold Vts.finish
  dsimp only
  split
  · exact hw.setFlags _
  · exact hw

theorem Inside.writes (h : Inside v.console) {writes : List (List (BitVec 8))}
    (hw : writes.foldlM (termStdout d) v = some v') : Inside v'.console := by
  induction writes generalizing v with
  | nil =>
    cases hw
    exact h
  | cons seq writes ih =>
    rw [List.foldlM_cons] at hw
    obtain ⟨v₁, hv₁, hrest⟩ := Option.bind_eq_some_iff.mp hw
    exact ih (h.written hv₁) hrest

/-- After any number of writes, and any number of characters of another one, the cursor is on the console. -/
theorem cursor_inside (d : Display σ) (v v' : Vts σ) (hcols : 8 ≤ v.console.max_x.toNat)
    (hx : v.console.pos_x < v.console.max_x) (hy : v.console.pos_y < v.console.max_y)
    (writes : List (List (BitVec 8))) (hw : writes.foldlM (termStdout d) v = some v') :
    (v'.console.pos_x < v'.console.max_x ∧ v'.console.pos_y < v'.console.max_y) ∧
    ∀ seq n, let c := ((v'.start d).after d seq n).console
      c.pos_x < c.max_x ∧ c.pos_y < c.max_y := by
  have hv : Inside v'.console := Inside.writes ⟨hcols, hx, hy⟩ hw
  refine ⟨⟨hv.x, hv.y⟩, fun seq n => ?_⟩
  have hc : Inside ((v'.start d).after d seq n).console := hv.start.after seq n
  exact ⟨hc.x, hc.y⟩

def blind : Display Unit := ⟨fun _ _ => (), fun _ => (), fun _ => (), fun _ => (), fun _ _ _ => (), fun _ => ()⟩

def narrow (x : BitVec 32) : Vts Unit := ⟨CURSOR ||| WRAP, CURSOR ||| WRAP, x, 0, 8, 1, true, ()⟩

theorem cursor_inside_narrow :
    ((narrow 1).console.pos_x < (narrow 1).console.max_x ∧ (narrow 1).console.pos_y < (narrow 1).console.max_y) ∧
    ∀ seq n, let c := (((narrow 1).start blind).after blind seq n).console
      c.pos_x < c.max_x ∧ c.pos_y < c.max_y :=
  cursor_inside blind (narrow 0) (narrow 1) (by decide) (by decide) (by decide) [[0x61, 0x09], [0x62]] rfl

end Novino.Term
