import Novino.Theorems.Displays

/-! Writes that are cut into pieces. Each write starts outside of an escape sequence, so a piece has to end between
    characters and outside of escape sequences (`Clean`); after any other piece a printable character makes a
    difference. -/

namespace Novino.Term

open Libc

variable {rest : List (BitVec 8)} {t ch : BitVec 32} {shift : Nat}

theorem mbtowcLoop_append {r : BitVec 32 × Nat}
    (h : mbtowcLoop t ch shift rest = some r) (more : List (BitVec 8)) :
    mbtowcLoop t ch shift (rest ++ more) = some r ∧ r.2 ≤ shift + 1 + rest.length ∧ 0 < r.2 := by
  induction rest generalizing t ch shift with
  | nil =>
    unfold mbtowcLoop at h
    split at h
    · cases h
    · rename_i hlast
      cases h
      refine ⟨?_, Nat.le_refl _, Nat.succ_pos _⟩
      cases more with
      | nil => exact if_neg hlast
      | cons val more => exact if_neg hlast
  | cons val rest ih =>
    unfold mbtowcLoop at h
    rw [List.cons_append]
    unfold mbtowcLoop
    by_cases hmore : t &&& 0xC0 = 0xC0
    · rw [if_pos hmore] at h ⊢
      by_cases hval : val &&& 0xC0 ≠ 0x80
      · rw [if_pos hval] at h
        cases h
      · rw [if_neg hval] at h ⊢
        obtain ⟨heq, hle, hpos⟩ := ih h
        refine ⟨heq, ?_, hpos⟩
        rw [List.length_cons]
        omega
    · rw [if_neg hmore] at h ⊢
      cases h
      exact ⟨rfl, Nat.le_add_right _ _, Nat.succ_pos _⟩

theorem mbtowc_append {s : Nat} (h : mbtowc rest = some (ch, s))
    (more : List (BitVec 8)) : mbtowc (rest ++ more) = some (ch, s) ∧ s ≤ rest.length := by
  cases rest with
  | nil => cases h
  | cons val rest =>
    rw [mbtowc] at h
    rw [List.cons_append, mbtowc]
    by_cases hval : val < 128
    · rw [if_pos hval] at h ⊢
      refine ⟨h, ?_⟩
      cases h
      rw [List.length_cons]
      split <;> omega
    · rw [if_neg hval] at h ⊢
      obtain ⟨heq, hle, -⟩ := mbtowcLoop_append h more
      refine ⟨heq, ?_⟩
      rw [List.length_cons]
      omega

theorem mbtowcLoop_cut
    (h : mbtowcLoop t ch shift rest = none) : mbtowcLoop t ch shift (rest ++ [0x61]) = none := by
  induction rest generalizing t ch shift with
  | nil =>
    unfold mbtowcLoop at h
    split_ifs at h with hmore
    rw [List.nil_append, mbtowcLoop, if_pos hmore, if_pos (by decide)]
  | cons val rest ih =>
    unfold mbtowcLoop at h
    rw [List.cons_append]
    unfold mbtowcLoop
    split_ifs at h ⊢
    · rfl
    · exact ih h

/-- A letter does not make a whole character of what is cut. -/
theorem mbtowc_cut (h : mbtowc rest = none) (hne : rest ≠ []) :
    mbtowc (rest ++ [0x61]) = none := by
  cases rest with
  | nil => exact absurd rfl hne
  | cons val rest =>
    rw [mbtowc] at h
    rw [List.cons_append, mbtowc]
    split_ifs at h ⊢
    exact mbtowcLoop_cut h

/-- The state of the decoder, `esc` and `csi`, after a character. -/
def next (esc csi : Bool) (ch : BitVec 32) : Bool × Bool :=
  if csi then (esc, ¬(0x40 ≤ ch ∧ ch ≤ 0x7E))
  else if esc ∧ ch = 0x5B then (false, true)
  else (ch = 0x1B, false)

/-- A piece of a write that ends between characters and outside of escape sequences, or at a NUL, and can be drawn. -/
inductive Clean (ok : BitVec 32 → Prop) : Bool → Bool → List (BitVec 8) → Prop
  | done : Clean ok false false []
  | stuck {esc csi rest ch} : mbtowc rest = some (ch, 0) → Clean ok esc csi rest
  | step {esc csi rest ch s} : mbtowc rest = some (ch, s) → (csi = false → BitVec.sle 0x10 ch → ok ch) →
    Clean ok (next esc csi ch).1 (next esc csi ch).2 (rest.drop s) → Clean ok esc csi rest

section

variable {σ : Type} {d : Display σ} {w w' : Stdout σ} {rest : List (BitVec 8)} {ch flags : BitVec 32} {s n : Nat}

theorem feed_state (w : Stdout σ) (ch : BitVec 32) :
    (w.feed d ch).esc = (next w.esc w.csi ch).1 ∧ (w.feed d ch).csi = (next w.esc w.csi ch).2 := by
  unfold Stdout.feed next
  by_cases hcsi : w.csi = true
  · rw [if_pos hcsi, if_pos hcsi]
    by_cases hend : 0x40 ≤ ch ∧ ch ≤ 0x7E
    · rw [if_pos hend]
      exact ⟨rfl, (decide_eq_false (not_not_intro hend)).symm⟩
    · rw [if_neg hend]
      split
      · exact ⟨rfl, hcsi.trans (decide_eq_true hend).symm⟩
      · exact ⟨rfl, hcsi.trans (decide_eq_true hend).symm⟩
  · rw [if_neg hcsi, if_neg hcsi]
    by_cases hopen : w.esc = true ∧ ch = 0x5B
    · rw [if_pos hopen, if_pos hopen]
      exact ⟨rfl, rfl⟩
    · rw [if_neg hopen, if_neg hopen]
      by_cases hesc : ch = 0x1B
      · rw [if_pos hesc]
        exact ⟨(decide_eq_true hesc).symm, Bool.eq_false_of_not_eq_true hcsi⟩
      · rw [if_neg hesc]
        exact ⟨(decide_eq_false hesc).symm, Bool.eq_false_of_not_eq_true hcsi⟩

/-- Two states that differ only in parameters that are not read. -/
structure Like (w w' : Stdout σ) : Prop where
  console : w.console = w'.console
  csi : w.csi = w'.csi
  esc : w.esc = w'.esc
  params : w.csi = true → w.a = w'.a ∧ w.b = w'.b

theorem Like.feed (h : Like w w') (ch : BitVec 32) : Like (w.feed d ch) (w'.feed d ch) := by
  by_cases hcsi : w.csi = true
  · obtain ⟨ha, hb⟩ := h.params hcsi
    have heq : w = w' := by
      obtain ⟨console, csi, esc, a, b⟩ := w
      obtain ⟨console', csi', esc', a', b'⟩ := w'
      obtain ⟨rfl, rfl, rfl, -⟩ := h
      cases ha
      cases hb
      rfl
    rw [heq]
    exact ⟨rfl, rfl, rfl, fun _ => ⟨rfl, rfl⟩⟩
  · have hcsi' : ¬w'.csi = true := h.csi ▸ hcsi
    unfold Stdout.feed
    rw [if_neg hcsi, if_neg hcsi', h.esc]
    split
    · exact ⟨h.console, rfl, rfl, fun _ => ⟨rfl, rfl⟩⟩
    · split
      · exact ⟨h.console, h.csi, rfl, fun hset => absurd hset hcsi⟩
      · exact ⟨congrArg (fun c => Console.putch d c ch) h.console, h.csi, rfl, fun hset => absurd hset hcsi⟩

theorem pass_eq (h : mbtowc rest = some (ch, s)) :
    w.pass d rest = some (w.feed d ch, rest.drop s) := by
  unfold Stdout.pass
  rw [h]

theorem pass_none (h : mbtowc rest = none) : w.pass d rest = none := by
  unfold Stdout.pass
  rw [h]

theorem Like.loop (h : Like w w') (rest : List (BitVec 8)) (n : Nat) :
    (w.loop d rest n).map (·.console) = (w'.loop d rest n).map (·.console) := by
  induction n generalizing w w' rest with
  | zero => exact congrArg some h.console
  | succ n ih =>
    unfold Stdout.loop
    cases hch : mbtowc rest with
    | none =>
      rw [pass_none hch, pass_none hch]
      exact congrArg some h.console
    | some r =>
      rw [pass_eq hch, pass_eq hch]
      dsimp only
      split
      · rfl
      · exact ih (h.feed r.1) _

theorem loop_stuck (h : mbtowc rest = some (ch, 0)) (n : Nat) :
    w.loop d rest (n + 1) = none := by
  unfold Stdout.loop
  rw [pass_eq h]
  exact if_pos rfl

theorem length_pos {r : BitVec 32 × Nat} (h : mbtowc rest = some r) : 0 < rest.length := by
  cases rest with
  | nil => cases h
  | cons val rest => exact Nat.succ_pos _

theorem loop_step (h : mbtowc rest = some (ch, s)) (hs : 0 < s)
    (n : Nat) : w.loop d rest (n + 1) = (w.feed d ch).loop d (rest.drop s) n := by
  have hpos := length_pos h
  have hne : (rest.drop s).length ≠ rest.length := by
    rw [List.length_drop]
    omega
  rw [Stdout.loop, pass_eq h]
  exact if_neg hne

theorem loop_none (h : mbtowc rest = none) (n : Nat) : w.loop d rest n = some w := by
  cases n with
  | zero => rfl
  | succ n =>
    unfold Stdout.loop
    rw [pass_none h]

theorem loop_enough {m : Nat} (hn : rest.length ≤ n) (hm : rest.length ≤ m) :
    w.loop d rest n = w.loop d rest m := by
  induction n generalizing w rest m with
  | zero =>
    have hnil : rest = [] := List.length_eq_zero_iff.mp (Nat.le_zero.mp hn)
    rw [hnil, loop_none rfl, loop_none rfl]
  | succ n ih =>
    cases hch : mbtowc rest with
    | none => rw [loop_none hch, loop_none hch]
    | some r =>
      have hpos := length_pos hch
      obtain ⟨m, rfl⟩ : ∃ k, m = k + 1 := ⟨m - 1, by omega⟩
      rcases Nat.eq_zero_or_pos r.2 with hzero | hs
      · have hstuck : mbtowc rest = some (r.1, 0) := hzero ▸ hch
        rw [loop_stuck hstuck, loop_stuck hstuck]
      · rw [loop_step hch hs, loop_step hch hs]
        apply ih
        · rw [List.length_drop]
          omega
        · rw [List.length_drop]
          omega

def Stdout.all (d : Display σ) (w : Stdout σ) (rest : List (BitVec 8)) : Option (Stdout σ) := w.loop d rest rest.length

theorem all_stuck (h : mbtowc rest = some (ch, 0)) : w.all d rest = none := by
  obtain ⟨n, hn⟩ := Nat.exists_eq_succ_of_ne_zero (Nat.pos_iff_ne_zero.mp (length_pos h))
  unfold Stdout.all
  rw [hn]
  exact loop_stuck h n

theorem all_step (h : mbtowc rest = some (ch, s)) (hs : 0 < s) :
    w.all d rest = (w.feed d ch).all d (rest.drop s) := by
  obtain ⟨n, hn⟩ := Nat.exists_eq_succ_of_ne_zero (Nat.pos_iff_ne_zero.mp (length_pos h))
  unfold Stdout.all
  rw [hn, Nat.succ_eq_add_one, loop_step h hs]
  apply loop_enough
  · rw [List.length_drop]
    omega
  · exact Nat.le_refl _

variable {ok : BitVec 32 → Prop} {esc csi : Bool} {xs : List (BitVec 8)}

theorem Clean.append (h : Clean ok esc csi xs) (hesc : w.esc = esc) (hcsi : w.csi = csi)
    (ys : List (BitVec 8)) : w.all d (xs ++ ys) = (w.all d xs).bind fun w' => w'.all d ys := by
  induction h generalizing w with
  | done => rfl
  | stuck hch =>
    rw [all_stuck hch, all_stuck (mbtowc_append hch ys).1]
    rfl
  | @step esc csi rest ch s hch hok hrest ih =>
    obtain ⟨hmore, hle⟩ := mbtowc_append hch ys
    rcases Nat.eq_zero_or_pos s with rfl | hs
    · rw [all_stuck hch, all_stuck hmore]
      rfl
    · rw [all_step hch hs, all_step hmore hs, List.drop_append_of_le_length hle]
      obtain ⟨hesc', hcsi'⟩ := feed_state (d := d) w ch
      rw [hesc, hcsi] at hesc' hcsi'
      exact ih hesc' hcsi'

/-- A piece is clean, or a write that goes on behind it goes on in the middle of something. -/
theorem clean_or_cut (w : Stdout σ) (xs : List (BitVec 8)) :
    Clean (fun _ => True) w.esc w.csi xs ∨
      ∃ (w' : Stdout σ) (rest : List (BitVec 8)), mbtowc rest = none ∧ (rest = [] → w'.esc = true ∨ w'.csi = true) ∧
        ∀ ys, w.all d (xs ++ ys) = w'.all d (rest ++ ys) := by
  induction hn : xs.length using Nat.strong_induction_on generalizing w xs with
  | _ n ih =>
    cases hch : mbtowc xs with
    | none =>
      by_cases hend : xs = [] ∧ w.esc = false ∧ w.csi = false
      · obtain ⟨rfl, hesc, hcsi⟩ := hend
        rw [hesc, hcsi]
        exact .inl .done
      · refine .inr ⟨w, xs, hch, fun hnil => ?_, fun _ => rfl⟩
        by_contra hstate
        simp only [not_or, Bool.not_eq_true] at hstate
        exact hend ⟨hnil, hstate⟩
    | some r =>
      obtain ⟨ch, s⟩ := r
      rcases Nat.eq_zero_or_pos s with rfl | hs
      · exact .inl (.stuck hch)
      have hpos := length_pos hch
      have hless : (xs.drop s).length < n := by
        rw [List.length_drop]
        omega
      rcases ih _ hless (w.feed d ch) (xs.drop s) rfl with hclean | ⟨w', rest, hrest, hopen, hall⟩
      · obtain ⟨hesc, hcsi⟩ := feed_state (d := d) w ch
        rw [hesc, hcsi] at hclean
        exact .inl (.step hch (fun _ _ => trivial) hclean)
      · refine .inr ⟨w', rest, hrest, hopen, fun ys => ?_⟩
        obtain ⟨hmore, hle⟩ := mbtowc_append hch ys
        rw [all_step hmore hs, List.drop_append_of_le_length hle]
        exact hall ys

/-- There is a character that is printed at the start of a write, and that changes nothing behind a piece that is not
clean. -/
theorem swallowed (h : mbtowc rest = none)
    (hopen : rest = [] → w.esc = true ∨ w.csi = true) :
    ∃ b ∈ ([0x5B, 0x61, 0x7A] : List (BitVec 8)), (w.all d (rest ++ [b])).map (·.console) = some w.console := by
  by_cases hnil : rest = []
  · subst hnil
    by_cases hcsi : w.csi = true
    · refine ⟨0x7A, by simp, ?_⟩
      have hch : mbtowc [0x7A] = some (0x7A, 1) := rfl
      rw [List.nil_append, all_step hch (by decide)]
      simp [Stdout.all, Stdout.loop, Stdout.feed, hcsi, handleAnsiEscape]
    · have hesc := (hopen rfl).resolve_right hcsi
      refine ⟨0x5B, by simp, ?_⟩
      have hch : mbtowc [0x5B] = some (0x5B, 1) := rfl
      rw [List.nil_append, all_step hch (by decide)]
      simp [Stdout.all, Stdout.loop, Stdout.feed, hcsi, hesc]
  · refine ⟨0x61, by simp, ?_⟩
    rw [Stdout.all, loop_none (mbtowc_cut h hnil)]
    rfl

theorem Inside.putch_moves {c : Console σ} (h : Inside c) {b : BitVec 8}
    (hb : b ∈ ([0x5B, 0x61, 0x7A] : List (BitVec 8))) : (c.putch d (b.setWidth 32)).pos_x ≠ c.pos_x := by
  have htoggle : ∀ c : Console σ, (c.toggleCursor d).pos_x = c.pos_x := fun c => congrArg (·.1) toggleCursor_place
  have hin : Inside (c.toggleCursor d) := h.toggleCursor
  unfold Console.putch
  rw [htoggle, ← htoggle c]
  generalize c.toggleCursor d = c at hin
  obtain ⟨hcols, hx, hy⟩ := hin
  have hdraw : c.advance d (b.setWidth 32) =
      if c.pos_x + 1 = c.max_x then { c with display := d.putch c (b.setWidth 32), pos_x := 0, pos_y := c.pos_y + 1 }
      else { c with display := d.putch c (b.setWidth 32), pos_x := c.pos_x + 1 } := by
    simp only [List.mem_cons, List.not_mem_nil, or_false] at hb
    rcases hb with rfl | rfl | rfl <;> rfl
  unfold Console.putchar
  rw [hdraw]
  split_ifs with hend
  · have hzero : ∀ c : Console σ, c.pos_x = 0 → (c.scroll d).pos_x = 0 := by
      intro c hc
      unfold Console.scroll
      split_ifs
      · exact hc
      · rfl
      · rfl
    rw [hzero _ rfl]
    bv_omega
  · rw [Console.scroll, if_pos hy]
    show c.pos_x + 1 ≠ c.pos_x
    bv_omega

theorem setFlags_place (c : Console σ) (flags : BitVec 32) : (c.setFlags d flags).place = c.place := by
  unfold Console.setFlags
  split_ifs
  · exact toggleCursor_place
  · exact toggleCursor_place
  · rfl

theorem start_pos (v : Vts σ) : (v.start d).console.pos_x = v.console.pos_x := by
  unfold Vts.start
  dsimp only
  split_ifs
  · exact congrArg (·.1) (setFlags_place _ _)
  · rfl

theorem finish_pos (v : Vts σ) (w : Stdout σ) : (v.finish d w).console.pos_x = w.console.pos_x := by
  unfold Vts.finish
  dsimp only
  split_ifs
  · exact congrArg (·.1) (setFlags_place _ _)
  · rfl

/-- A cut that makes no difference to any rest is clean. -/
theorem clean_of_cut {v : Vts σ} (h : Inside v.console)
    (hcut : ∀ ys, termStdout d v (xs ++ ys) = (termStdout d v xs).bind fun v' => termStdout d v' ys) :
    Clean (fun _ => True) false false xs := by
  refine (clean_or_cut (d := d) (v.start d) xs).resolve_right ?_
  rintro ⟨w, rest, hrest, hopen, hall⟩
  obtain ⟨b, hb, hsame⟩ := swallowed (d := d) hrest hopen
  have hxs : (v.start d).all d xs = some w := by
    have hall := hall []
    rwa [List.append_nil, List.append_nil, Stdout.all, Stdout.all, loop_none hrest] at hall
  have hfirst : termStdout d v xs = some (v.finish d w) := congrArg (Option.map (v.finish d)) hxs
  have hin : Inside (v.finish d w).console := h.written hfirst
  obtain ⟨w', hw', hconsole⟩ := Option.map_eq_some_iff.mp hsame
  have hone : termStdout d v (xs ++ [b]) = some (v.finish d w') :=
    congrArg (Option.map (v.finish d)) ((hall [b]).trans hw')
  have hsplit : termStdout d (v.finish d w) [b] =
      some ((v.finish d w).finish d { (v.finish d w).start d with
        console := ((v.finish d w).start d).console.putch d (b.setWidth 32) }) := by
    simp only [List.mem_cons, List.not_mem_nil, or_false] at hb
    rcases hb with rfl | rfl | rfl <;> rfl
  have hmoved := hcut [b]
  rw [hone, hfirst, Option.bind_some, hsplit] at hmoved
  have hpos := congrArg (·.console.pos_x) (Option.some.inj hmoved)
  simp only [finish_pos, hconsole] at hpos
  refine Inside.putch_moves (d := d) (hin.start (d := d)) hb ?_
  rw [← hpos, start_pos, finish_pos]

/-! ### What a write keeps -/

variable {c : Console σ}

theorem toggleCursor_flags : (c.toggleCursor d).flags = c.flags := by
  unfold Console.toggleCursor
  split <;> rfl

theorem putchar_flags (ch : BitVec 32) : (c.putchar d ch).flags = c.flags := by
  have hscroll : ∀ c : Console σ, (c.scroll d).flags = c.flags := by
    intro c
    unfold Console.scroll
    split
    · rfl
    · dsimp only
      split <;> rfl
  refine (hscroll _).trans ?_
  unfold Console.advance
  dsimp only
  repeat' split
  all_goals rfl

theorem putch_flags (ch : BitVec 32) : (c.putch d ch).flags = c.flags :=
  toggleCursor_flags.trans ((putchar_flags ch).trans toggleCursor_flags)

theorem moveCursor_flags (x y : BitVec 32) (rela : Bool) : (c.moveCursor d x y rela).flags = c.flags :=
  toggleCursor_flags.trans toggleCursor_flags

theorem feed_flags (w : Stdout σ) (ch : BitVec 32) : (w.feed d ch).console.flags = w.console.flags := by
  unfold Stdout.feed
  split
  · split
    · exact handleAnsiEscape_cases (P := (·.flags = w.console.flags)) rfl toggleCursor_flags moveCursor_flags
        (fun _ _ => rfl) ..
    · split <;> rfl
  · split
    · rfl
    · split
      · rfl
      · exact putch_flags ch

theorem loop_flags (h : w.loop d rest n = some w') :
    w'.console.flags = w.console.flags := by
  induction n generalizing w rest with
  | zero =>
    cases h
    rfl
  | succ n ih =>
    unfold Stdout.loop at h
    cases hch : mbtowc rest with
    | none =>
      rw [pass_none hch] at h
      cases h
      rfl
    | some r =>
      rw [pass_eq hch] at h
      dsimp only at h
      split at h
      · cases h
      · exact (ih h).trans (feed_flags w r.1)

variable {γ κ : Type} {p : Paint γ κ} {Fit : Console σ → γ → Prop} {Rep : Console σ → Logical γ κ → Prop}

def Showing (p : Paint γ κ) (Rep : Console σ → Logical γ κ → Prop) (c : Console σ) : Prop := ∃ l, Shows p Rep c l

theorem Draws.showing (hd : Draws d p ok Fit Rep) (h : Showing p Rep c) (op : ConsoleOp) (hok : Drawn ok op) :
    Showing p Rep (c.step d op) := by
  obtain ⟨l, hl⟩ := h
  exact ⟨_, hd.step hl hok⟩

theorem Draws.feed (hd : Draws d p ok Fit Rep) (h : Showing p Rep w.console)
    (hok : w.csi = false → BitVec.sle 0x10 ch → ok ch) : Showing p Rep (w.feed d ch).console := by
  unfold Stdout.feed
  by_cases hcsi : w.csi = true
  · rw [if_pos hcsi]
    split
    · exact handleAnsiEscape_cases h (hd.showing h .clear trivial)
        (fun x y rela => hd.showing h (.moveCursor x y rela) trivial)
        (fun fg bg => hd.showing h (.setColor fg bg) trivial) ..
    · split <;> exact h
  · rw [if_neg hcsi]
    split
    · exact h
    · split
      · exact h
      · exact hd.showing h (.putch ch) (hok (Bool.eq_false_of_not_eq_true hcsi))

theorem Clean.ends {ok' : BitVec 32 → Prop} (hclean : Clean ok' esc csi xs) (hd : Draws d p ok Fit Rep)
    {C : Prop} (hlink : ∀ ch, ok' ch → C → ok ch) {w' : Stdout σ}
    (hesc : w.esc = esc) (hcsi : w.csi = csi) (h : C → Showing p Rep w.console) (hall : w.all d xs = some w') :
    w'.esc = false ∧ w'.csi = false ∧ (C → Showing p Rep w'.console) := by
  induction hclean generalizing w with
  | done =>
    cases hall
    exact ⟨hesc, hcsi, h⟩
  | stuck hch =>
    rw [all_stuck hch] at hall
    cases hall
  | @step esc csi rest ch s hch hok hrest ih =>
    rcases Nat.eq_zero_or_pos s with rfl | hs
    · rw [all_stuck hch] at hall
      cases hall
    · rw [all_step hch hs] at hall
      obtain ⟨hesc', hcsi'⟩ := feed_state (d := d) w ch
      rw [hesc, hcsi] at hesc' hcsi'
      exact ih hesc' hcsi' (fun hC => hd.feed (h hC) fun h hdraw => hlink ch (hok (hcsi ▸ h) hdraw) hC) hall

variable {v : Vts σ}

theorem setFlags_flags (flags : BitVec 32) : (c.setFlags d flags).flags = flags := by
  unfold Console.setFlags
  split
  · split
    · exact toggleCursor_flags
    · rfl
  · rfl

theorem setFlags_on (hon : flags &&& CURSOR ≠ 0) (hoff : ¬c.flags &&& CURSOR ≠ 0) :
    c.setFlags d flags = { c with flags := flags, display := d.toggleCursor { c with flags := flags } } := by
  have hchange : (flags ^^^ c.flags) &&& CURSOR ≠ 0 := (xor_cursor _ _).mpr fun h => hoff (h.mp hon)
  unfold Console.setFlags Console.toggleCursor
  rw [if_pos hchange, if_pos hon, if_pos hon]

theorem setFlags_off (hoff : ¬flags &&& CURSOR ≠ 0) (hon : c.flags &&& CURSOR ≠ 0) :
    c.setFlags d flags = { c with flags := flags, display := d.toggleCursor c } := by
  have hchange : (flags ^^^ c.flags) &&& CURSOR ≠ 0 := (xor_cursor _ _).mpr fun h => hoff (h.mpr hon)
  unfold Console.setFlags Console.toggleCursor
  rw [if_pos hchange, if_neg hoff, if_pos hon]

theorem cursor_removed (h : flags &&& CURSOR ≠ 0) : ¬(flags ^^^ CURSOR) &&& CURSOR ≠ 0 := by
  rw [xor_cursor]
  exact not_not_intro ⟨fun _ => by decide, fun _ => h⟩

theorem Draws.start_finish (hd : Draws d p ok Fit Rep) (h : v.flags &&& CURSOR ≠ 0 → Showing p Rep w.console)
    (hflags : v.flags &&& CURSOR ≠ 0 → w.console.flags = v.flags ^^^ CURSOR) :
    (v.finish d w).start d = { console := w.console } := by
  unfold Vts.finish Vts.start
  dsimp only
  by_cases hcursor : v.flags &&& CURSOR ≠ 0
  · rw [if_pos hcursor, if_pos hcursor]
    have hoff := cursor_removed hcursor
    obtain ⟨l, hl⟩ := h hcursor
    have hrep : Rep { w.console with flags := v.flags } (p.shown l) := hd.frame hl.rep rfl rfl rfl rfl
    have hrestore := hd.restore hrep (hl.inside.of_place rfl)
    rw [setFlags_on hcursor (hflags hcursor ▸ hoff), setFlags_off hoff hcursor]
    dsimp only at hrestore ⊢
    rw [hrestore, ← hflags hcursor]
  · rw [if_neg hcursor, if_neg hcursor]

theorem start_flags (h : v.flags &&& CURSOR ≠ 0) : (v.start d).console.flags = v.flags ^^^ CURSOR := by
  unfold Vts.start
  rw [if_pos h]
  exact setFlags_flags _

theorem Draws.start (hd : Draws d p ok Fit Rep) (h : Showing p Rep v.console) :
    Showing p Rep (v.start d).console := by
  unfold Vts.start
  split
  · exact hd.showing h (.setFlags _) trivial
  · exact h

theorem Draws.finish (hd : Draws d p ok Fit Rep) (h : Showing p Rep w.console) :
    Showing p Rep (v.finish d w).console := by
  unfold Vts.finish
  dsimp only
  split
  · exact hd.showing h (.setFlags _) trivial
  · exact h

theorem Like.finish (h : Like w w') (ys : List (BitVec 8)) :
    (w.all d ys).map (v.finish d) = (w'.all d ys).map (v.finish d) := by
  have hconsole := h.loop (d := d) ys ys.length
  have hfinish : v.finish d = (fun c => { v with
      console := if v.flags &&& CURSOR ≠ 0 then c.setFlags d v.flags else c }) ∘ (·.console) := rfl
  rw [hfinish, ← Option.map_map, ← Option.map_map]
  exact congrArg _ hconsole

section
variable {ok' : BitVec 32 → Prop} (hd : Draws d p ok Fit Rep) (hlink : ∀ ch, ok' ch → v.flags &&& CURSOR ≠ 0 → ok ch)
  (h : v.flags &&& CURSOR ≠ 0 → Showing p Rep v.console)
include hd hlink h

theorem Draws.write_append (hclean : Clean ok' false false xs)
    (ys : List (BitVec 8)) : termStdout d v (xs ++ ys) = (termStdout d v xs).bind fun v' => termStdout d v' ys := by
  show ((v.start d).all d (xs ++ ys)).map (v.finish d) =
    (((v.start d).all d xs).map (v.finish d)).bind fun v' => termStdout d v' ys
  rw [hclean.append rfl rfl]
  cases hall : (v.start d).all d xs with
  | none => rfl
  | some w =>
    obtain ⟨hesc, hcsi, hshow⟩ := hclean.ends hd hlink rfl rfl (fun hcursor => hd.start (h hcursor)) hall
    have hflags : v.flags &&& CURSOR ≠ 0 → w.console.flags = v.flags ^^^ CURSOR :=
      fun hcursor => (loop_flags hall).trans (start_flags hcursor)
    have hlike : Like w { console := w.console } :=
      ⟨rfl, hcsi, hesc, fun hset => absurd (hcsi.symm.trans hset) Bool.false_ne_true⟩
    show (w.all d ys).map (v.finish d) = (((v.finish d w).start d).all d ys).map (v.finish d)
    rw [hd.start_finish hshow hflags]
    exact hlike.finish ys

theorem Draws.write_showing (hclean : Clean ok' false false xs) {v' : Vts σ} (hw : termStdout d v xs = some v') :
    v'.flags = v.flags ∧ (v.flags &&& CURSOR ≠ 0 → Showing p Rep v'.console) := by
  obtain ⟨w, hall, rfl⟩ := Option.map_eq_some_iff.mp hw
  exact ⟨rfl, fun hcursor => hd.finish
    ((hclean.ends hd hlink rfl rfl (fun hcursor => hd.start (h hcursor)) hall).2.2 hcursor)⟩

theorem Draws.writes (x : List (BitVec 8))
    (pieces : List (List (BitVec 8))) (hclean : ∀ piece ∈ (x :: pieces).dropLast, Clean ok' false false piece) :
    (x :: pieces).foldlM (termStdout d) v = termStdout d v (x :: pieces).flatten := by
  induction pieces generalizing v x with
  | nil =>
    rw [List.flatten_cons, List.flatten_nil, List.append_nil, List.foldlM_cons]
    exact bind_pure _
  | cons y pieces ih =>
    rw [List.dropLast_cons_cons] at hclean
    have hx : Clean ok' false false x := hclean x List.mem_cons_self
    have hrest : ∀ piece ∈ (y :: pieces).dropLast, Clean ok' false false piece :=
      fun piece hpiece => hclean piece (List.mem_cons_of_mem _ hpiece)
    rw [List.flatten_cons, hd.write_append hlink h hx, List.foldlM_cons]
    cases hw : termStdout d v x with
    | none => rfl
    | some v' =>
      obtain ⟨hflags, hshow⟩ := hd.write_showing hlink h hx hw
      rw [← hflags] at hlink hshow
      exact ih hlink hshow y hrest

end

theorem cut_iff (hin : Inside v.console)
    (hwrites : ∀ (x : List (BitVec 8)) (pieces : List (List (BitVec 8))),
      (∀ piece ∈ (x :: pieces).dropLast, Clean (fun _ => True) false false piece) →
        (x :: pieces).foldlM (termStdout d) v = termStdout d v (x :: pieces).flatten) :
    (∀ ys, [xs, ys].foldlM (termStdout d) v = termStdout d v (xs ++ ys)) ↔ Clean (fun _ => True) false false xs := by
  constructor
  · intro hcut
    refine clean_of_cut hin fun ys => (hcut ys).symm.trans ?_
    simp
  · intro hclean ys
    have hone := hwrites xs [ys] (fun piece hpiece => List.mem_singleton.mp hpiece ▸ hclean)
    simpa using hone

end

theorem vesa_inside (depth : Depth) {width height : BitVec 32} (flags : BitVec 32) (active : Bool)
    (glyphs : Nat → Glyph) (buf lfb : Pixels) (hwidth : 64 ≤ width.toNat) (hheight : 16 ≤ height.toNat)
    (ops : List ConsoleOp) : Inside (ops.foldl (Console.step (vesa zapLight))
      ((vesaInit zapLight depth width height flags active glyphs buf lfb).clear (vesa zapLight))) :=
  List.foldlRecOn ops _ (vesaInit_inside depth flags active glyphs buf lfb hwidth hheight).clear
    fun _ h op _ => h.step op

/-- After any operations, writes of pieces do what one write of all of them does, where all pieces but the last are
clean; and a piece that any rest can follow is clean. In graphics mode the characters have to be drawn again by their
number, where writes remove the cursor and draw it. -/
theorem writes_as_one (vflags flags : BitVec 32) (active : Bool) (ops : List ConsoleOp) (x : List (BitVec 8))
    (pieces : List (List (BitVec 8))) :
    (∀ buf mem : Nat → BitVec 16,
      let v : Vts Vga := ⟨vflags, ops.foldl (Console.step vga) ((vgaInit flags active buf mem).clear vga)⟩
      ((∀ piece ∈ (x :: pieces).dropLast, Clean (fun _ => True) false false piece) →
        (x :: pieces).foldlM (termStdout vga) v = termStdout vga v (x :: pieces).flatten) ∧
      ((∀ ys, [x, ys].foldlM (termStdout vga) v = termStdout vga v (x ++ ys)) ↔ Clean (fun _ => True) false false x)) ∧
    ∀ (depth : Depth) (width height : BitVec 32) (glyphs : Nat → Glyph) (buf lfb : Pixels),
      64 ≤ width.toNat → 16 ≤ height.toNat → (vflags &&& CURSOR ≠ 0 → ∀ op ∈ ops, Drawn (Redrawn zapLight) op) →
      let v : Vts Vesa := ⟨vflags, ops.foldl (Console.step (vesa zapLight))
        ((vesaInit zapLight depth width height flags active glyphs buf lfb).clear (vesa zapLight))⟩
      let ok := fun ch => vflags &&& CURSOR ≠ 0 → Redrawn zapLight ch
      ((∀ piece ∈ (x :: pieces).dropLast, Clean ok false false piece) →
        (x :: pieces).foldlM (termStdout (vesa zapLight)) v = termStdout (vesa zapLight) v (x :: pieces).flatten) ∧
      (vflags &&& CURSOR = 0 → ((∀ ys, [x, ys].foldlM (termStdout (vesa zapLight)) v =
        termStdout (vesa zapLight) v (x ++ ys)) ↔ Clean (fun _ => True) false false x)) := by
  constructor
  · intro buf mem v
    have hshows := vga_shows flags active buf mem ops
    have hlink : ∀ ch : BitVec 32, True → v.flags &&& CURSOR ≠ 0 → True := fun _ _ _ => trivial
    have hwrites := vga_draws.writes (v := v) hlink (fun _ => ⟨_, hshows⟩)
    exact ⟨hwrites x pieces, cut_iff hshows.inside hwrites⟩
  · intro depth width height glyphs buf lfb hwidth hheight hok v ok
    have hdraws := @vesa_draws zapLight depth zapLight_blank
    have hshow : v.flags &&& CURSOR ≠ 0 → Showing (vesaPaint zapLight depth) (GraphicsRep zapLight depth) v.console :=
      fun hcursor => ⟨_, vesa_shows depth flags active glyphs buf lfb hwidth hheight (hok hcursor)⟩
    refine ⟨hdraws.writes (fun _ h hcursor => h hcursor) hshow x pieces, fun hnone => ?_⟩
    exact cut_iff (vesa_inside depth flags active glyphs buf lfb hwidth hheight ops)
      (hdraws.writes (fun _ _ hcursor => absurd hnone hcursor) hshow)

theorem writes_as_one_forward :
    let v : Vts Vga := ⟨CURSOR, (vgaInit CURSOR true (fun _ => 0) fun _ => 0).clear vga⟩
    [[0x1B, 0x5B, 0x43], [0x61]].foldlM (termStdout vga) v = termStdout vga v [0x1B, 0x5B, 0x43, 0x61] := by
  refine ((writes_as_one CURSOR CURSOR true [] [0x1B, 0x5B, 0x43] [[0x61]]).1 (fun _ => 0) (fun _ => 0)).1 ?_
  intro piece hpiece
  have hwhole : piece = [0x1B, 0x5B, 0x43] := List.mem_singleton.mp hpiece
  subst hwhole
  have hesc : mbtowc [0x1B, 0x5B, 0x43] = some (0x1B, 1) := rfl
  have hopen : mbtowc [0x5B, 0x43] = some (0x5B, 1) := rfl
  have hend : mbtowc [0x43] = some (0x43, 1) := rfl
  exact .step hesc (fun _ _ => trivial) (.step hopen (fun _ _ => trivial) (.step hend (fun _ _ => trivial) .done))

/-- The sequence that moves the cursor forward, cut after its first byte: the rest of it is printed. -/
theorem escape_cut :
    let v : Vts Vga := ⟨CURSOR, (vgaInit CURSOR true (fun _ => 0) fun _ => 0).clear vga⟩
    (termStdout vga v [0x1B, 0x5B, 0x43]).map (·.console.pos_x) = some 1 ∧
    ([[0x1B], [0x5B, 0x43]].foldlM (termStdout vga) v).map (·.console.pos_x) = some 2 :=
  ⟨rfl, rfl⟩

end Novino.Term
