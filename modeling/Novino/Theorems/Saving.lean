import Mathlib.Data.List.Infix
import Mathlib.Data.List.TakeWhile
import Novino.Ted.File

/-! Loading a file into the editor and saving it again. The capacities are powers of two, and none of them gets past
    2^30. -/

namespace Novino.Ted

variable {r : Reader} {done : List Byte} {init rest : List Line} {last : Line} {content : List Byte} {n : Nat}

/-- The bytes `done` have been read: `init` and `last` are the lines in use and `rest` those that are not. -/
structure Full (r : Reader) (done : List Byte) (init : List Line) (last : Line) (rest : List Line) : Prop where
  line : r.file.line = init ++ last :: rest
  lnum : r.lnum = init.length
  size : r.file.size = init.length + 1
  text : done = (init.flatMap fun l => l.text ++ [newline]) ++ last.text
  inner : newline ∉ last.text
  before : ∀ l ∈ init, newline ∉ l.text ∧ l.text.length + 1 < 2 ^ 30
  fits : last.text.length < last.cap
  unused : ∀ l ∈ rest, l = Line.fresh
  array : ∃ k ≤ 30, r.file.line.length = 2 ^ k
  cap : ∃ k ≤ 30, last.cap = 2 ^ k

/-- As it is between two rounds, there is room for one more byte and one more line. -/
structure Holds (r : Reader) (done : List Byte) (init : List Line) (last : Line) (rest : List Line) : Prop
    extends Full r done init last rest where
  room : last.text.length + 1 < last.cap
  free : rest ≠ []

/-- A content whose lines and their number stay below the largest capacities. -/
structure Small (content : List Byte) : Prop where
  lines : content.count newline + 1 < 2 ^ 30
  line : ∀ run, run <:+: content → newline ∉ run → run.length + 1 < 2 ^ 30

/-- A content of which the length fits an `int`, too. -/
structure Fits (content : List Byte) : Prop extends Small content where
  length : content.length < 2 ^ 31

theorem Small.of_prefix (h : Small content) (hp : done <+: content) : Small done where
  lines := Nat.lt_of_le_of_lt (Nat.succ_le_succ (hp.sublist.count_le newline)) h.lines
  line run hrun := h.line run (hrun.trans hp.isInfix)

theorem Fits.of_length (h : content.length + 1 < 2 ^ 30) : Fits content where
  length := by omega
  lines := Nat.lt_of_le_of_lt (Nat.succ_le_succ List.count_le_length) h
  line _ hrun _ := Nat.lt_of_le_of_lt (Nat.succ_le_succ hrun.length_le) h

theorem pow_double (h : ∃ k ≤ 30, n = 2 ^ k) (hlt : ¬2 ^ 31 ≤ 2 * n) : ∃ k ≤ 30, 2 * n = 2 ^ k := by
  obtain ⟨k, -, rfl⟩ := h
  rw [← Nat.pow_succ'] at hlt
  exact ⟨k + 1, Nat.le_of_lt_succ ((Nat.pow_lt_pow_iff_right (by decide)).mp (Nat.not_le.mp hlt)), Nat.pow_succ'.symm⟩

/-- A run without `x` lies on one side of it. -/
theorem infix_of_not_mem {x : Byte} {run a b : List Byte} (h : run <:+: a ++ x :: b) (hx : x ∉ run) :
    run <:+: a ∨ run <:+: b := by
  obtain ⟨s, t, heq⟩ := h
  rcases List.append_eq_append_iff.mp (heq.symm.trans (List.append_assoc ..)) with ⟨c, hs, hrest⟩ | ⟨c, ha, hrest⟩
  · -- The run starts at `x` or behind it.
    cases c with
    | nil =>
      cases run with
      | nil => exact .inl (List.nil_infix)
      | cons y run =>
        obtain ⟨rfl, -⟩ := List.cons.inj hrest
        exact absurd List.mem_cons_self hx
    | cons y c =>
      obtain ⟨-, hb⟩ := List.cons.inj hrest
      exact .inr ⟨c, t, (List.append_assoc ..).trans hb.symm⟩
  · rcases List.append_eq_append_iff.mp hrest with ⟨e, hc, -⟩ | ⟨e, hrun, hrest⟩
    · exact .inl ⟨s, e, by rw [ha, hc, List.append_assoc]⟩
    · cases e with
      | nil =>
        rw [List.append_nil] at hrun
        exact .inl ⟨s, [], by rw [ha, hrun, List.append_nil]⟩
      | cons y e =>
        obtain ⟨rfl, -⟩ := List.cons.inj hrest
        exact absurd (hrun ▸ List.mem_append_right _ List.mem_cons_self) hx

namespace Full

section
variable (h : Full r done init last rest)
include h

theorem count_init : done.count newline = init.length := by
  have hinit : ∀ init : List Line, (∀ l ∈ init, newline ∉ l.text) →
      (init.flatMap fun l => l.text ++ [newline]).count newline = init.length := by
    intro init hbefore
    induction init with
    | nil => rfl
    | cons l init ih =>
      rw [List.forall_mem_cons] at hbefore
      rw [List.flatMap_cons, List.count_append, List.count_append, List.count_singleton_self, List.length_cons,
        ih hbefore.2, List.count_eq_zero.mpr hbefore.1]
      omega
  rw [h.text, List.count_append, hinit init fun l hl => (h.before l hl).1, List.count_eq_zero.mpr h.inner]
  omega

theorem getElem_last : r.file.line[init.length]? = some last := by
  rw [h.line, List.getElem?_append_right (Nat.le_refl _), Nat.sub_self, List.getElem?_cons_zero]

theorem set_last (l : Line) : r.file.line.set init.length l = init ++ l :: rest := by
  rw [h.line, List.set_append_right _ _ (Nat.le_refl _), Nat.sub_self, List.set_cons_zero]

theorem last_infix : last.text <:+: done :=
  h.text ▸ (List.suffix_append _ _).isInfix

theorem array_grow : r.growArray = none ∧ ¬Small done ∨
    ∃ r' rest', r.growArray = some r' ∧ Full r' done init last rest' ∧ rest' ≠ [] := by
  have hlen : r.file.line.length = init.length + rest.length + 1 := by
    rw [h.line, List.length_append, List.length_cons]
    omega
  by_cases hfull : r.file.size = r.file.line.length
  · have hne : r.file.line.length ≠ 0 := by omega
    by_cases hcap : 2 ^ 31 ≤ 2 * r.file.line.length
    · refine .inl ⟨?_, fun hsmall => ?_⟩
      · simp only [Reader.growArray, if_pos hfull, File.fileGrow, if_neg hne, if_pos hcap, Option.map_none]
      · have hlines := hsmall.lines
        rw [h.count_init, ← h.size] at hlines
        omega
    have hmore : 2 * r.file.line.length - r.file.line.length = r.file.line.length := by omega
    have hgrow : r.file.fileGrow =
        some ⟨r.file.line ++ List.replicate r.file.line.length Line.fresh, r.file.size⟩ := by
      simp only [File.fileGrow, if_neg hne, if_neg hcap, hmore]
    refine .inr ⟨⟨⟨r.file.line ++ List.replicate r.file.line.length Line.fresh, r.file.size⟩, r.lnum⟩,
      rest ++ List.replicate r.file.line.length Line.fresh, ?_,
      ⟨?_, h.lnum, h.size, h.text, h.inner, h.before, h.fits, ?_, ?_, h.cap⟩, ?_⟩
    · rw [Reader.growArray, if_pos hfull, hgrow, Option.map_some]
    · show r.file.line ++ _ = _
      nth_rewrite 1 [h.line]
      rw [List.append_assoc, List.cons_append]
    · intro l hl
      rcases List.mem_append.mp hl with hl | hl
      · exact h.unused l hl
      · exact List.eq_of_mem_replicate hl
    · rw [List.length_append, List.length_replicate, ← Nat.two_mul]
      exact pow_double h.array hcap
    · intro hnil
      exact hne (List.replicate_eq_nil_iff _ |>.mp (List.append_eq_nil_iff.mp hnil).2)
  · refine .inr ⟨r, rest, if_neg hfull, h, fun hnil => hfull ?_⟩
    rw [hlen, h.size, hnil, List.length_nil]

theorem line_grow (hfree : rest ≠ []) : r.growLine = none ∧ ¬Small done ∨
    ∃ r' last', r.growLine = some r' ∧ Holds r' done init last' rest := by
  by_cases hfull : last.text.length + 1 = last.cap
  · by_cases hcap : 2 ^ 31 ≤ 2 * last.cap
    · refine .inl ⟨?_, fun hsmall => ?_⟩
      · simp only [Reader.growLine, File.lineGrow, h.lnum, h.getElem_last, Option.bind_eq_bind, Option.bind_some,
          if_pos hfull, growCap, if_pos hcap, Option.bind_none, Option.map_none]
      · have hline := hsmall.line _ h.last_infix h.inner
        omega
    have hgrow : growCap 0 32 last.cap = some (2 * last.cap) := by
      rw [growCap, if_neg hcap, if_neg (Nat.not_lt_zero _)]
    refine .inr ⟨⟨{ r.file with line := r.file.line.set init.length { last with cap := 2 * last.cap } }, r.lnum⟩,
      { last with cap := 2 * last.cap }, ?_,
      ⟨⟨h.set_last _, h.lnum, h.size, h.text, h.inner, h.before, ?_, h.unused, ?_, pow_double h.cap hcap⟩, ?_, hfree⟩⟩
    · simp only [Reader.growLine, File.lineGrow, h.lnum, h.getElem_last, hgrow, Option.bind_eq_bind,
        Option.bind_some, if_pos hfull, Option.map_some]
    · exact Nat.lt_of_lt_of_le h.fits (Nat.le_mul_of_pos_left _ (by decide))
    · simpa using h.array
    · show last.text.length + 1 < 2 * last.cap
      omega
  · have hfits' := h.fits
    refine .inr ⟨r, last, ?_, ⟨h, by omega, hfree⟩⟩
    simp only [Reader.growLine, h.lnum, h.getElem_last, Option.bind_eq_bind, Option.bind_some, if_neg hfull]

theorem grow : r.grow = none ∧ ¬Small done ∨
    ∃ r' last' rest', r.grow = some r' ∧ Holds r' done init last' rest' := by
  rw [Reader.grow]
  rcases h.array_grow with ⟨hnone, hlarge⟩ | ⟨r₁, rest', hr₁, hfull, hfree⟩
  · exact .inl ⟨by rw [hnone, Option.bind_none], hlarge⟩
  rw [hr₁, Option.bind_some]
  exact (hfull.line_grow hfree).imp_right fun ⟨r', last', hr, hholds⟩ => ⟨r', last', rest', hr, hholds⟩

end

end Full

namespace Holds

section
variable (h : Holds r done init last rest)
include h

theorem room_lt : last.text.length + 1 < 2 ^ 30 := by
  obtain ⟨k, hk, hcap⟩ := h.cap
  have hroom := h.room
  have hle := Nat.pow_le_pow_right (by decide : 0 < 2) hk
  omega

theorem small : Small done where
  lines := by
    obtain ⟨k, hk, hlen⟩ := h.array
    have hle := Nat.pow_le_pow_right (by decide : 0 < 2) hk
    have hpos := List.length_pos_iff.mpr h.free
    rw [h.line, List.length_append, List.length_cons] at hlen
    rw [h.count_init]
    omega
  line run hrun hnone := by
    have hlines : ∀ init : List Line, (∀ l ∈ init, l.text.length + 1 < 2 ^ 30) →
        run <:+: (init.flatMap fun l => l.text ++ [newline]) ++ last.text → run.length + 1 < 2 ^ 30 := by
      intro init hbefore hrun
      induction init with
      | nil =>
        have hle := hrun.length_le
        have hlt := h.room_lt
        simp only [List.flatMap_nil, List.nil_append] at hle
        omega
      | cons l init ih =>
        rw [List.forall_mem_cons] at hbefore
        rw [List.flatMap_cons, List.append_assoc, List.append_assoc, List.singleton_append] at hrun
        rcases infix_of_not_mem hrun hnone with hleft | hright
        · have hle := hleft.length_le
          omega
        · exact ih hbefore.2 hright
    exact hlines init (fun l hl => (h.before l hl).2) (h.text ▸ hrun)

theorem put {ch : Byte} (hch : ch ≠ newline) :
    ∃ f, r.file.put r.lnum ch = some f ∧
      Full ⟨f, r.lnum⟩ (done ++ [ch]) init { last with text := last.text ++ [ch] } rest := by
  refine ⟨{ r.file with line := r.file.line.set init.length { last with text := last.text ++ [ch] } }, ?_,
    ⟨h.set_last _, h.lnum, h.size, ?_, ?_, h.before, ?_, h.unused, by simpa using h.array, h.cap⟩⟩
  · simp only [File.put, h.lnum, h.getElem_last, Option.bind_eq_bind, Option.bind_some, if_pos h.room]
  · rw [h.text, List.append_assoc]
  · intro hmem
    rcases List.mem_append.mp hmem with hmem | hmem
    · exact h.inner hmem
    · exact hch (List.mem_singleton.mp hmem).symm
  · rw [List.length_append]
    exact h.room

theorem take :
    ∃ f rest', r.file.take = some f ∧
      Full ⟨f, r.file.size⟩ (done ++ [newline]) (init ++ [last]) Line.fresh rest' := by
  obtain ⟨l, rest', rfl⟩ := List.exists_cons_of_ne_nil h.free
  have hl : l = Line.fresh := h.unused l List.mem_cons_self
  have hlen : r.file.size < r.file.line.length := by
    rw [h.line, h.size, List.length_append, List.length_cons, List.length_cons]
    omega
  refine ⟨{ r.file with size := r.file.size + 1 }, rest', if_pos hlen,
    ⟨?_, ?_, ?_, ?_, List.not_mem_nil, ?_, by decide, ?_, h.array, ⟨7, by decide, rfl⟩⟩⟩
  · rw [h.line, hl, List.append_assoc, List.singleton_append]
  · rw [h.size, List.length_append, List.length_singleton]
  · show r.file.size + 1 = (init ++ [last]).length + 1
    rw [h.size, List.length_append, List.length_singleton]
  · rw [h.text, List.flatMap_append, List.flatMap_singleton, Line.fresh, List.append_nil, List.append_assoc]
  · intro l' hl'
    rcases List.mem_append.mp hl' with hl' | hl'
    · exact h.before l' hl'
    · exact List.mem_singleton.mp hl' ▸ ⟨h.inner, h.room_lt⟩
  · exact fun l' hl' => h.unused l' (List.mem_cons_of_mem _ hl')

theorem read (ch : Byte) : r.read ch = none ∧ ¬Small (done ++ [ch]) ∨
    ∃ r' init' last' rest', r.read ch = some r' ∧ Holds r' (done ++ [ch]) init' last' rest' := by
  by_cases hch : ch = newline
  · subst hch
    obtain ⟨f, rest', hf, hfull⟩ := h.take
    rw [Reader.read, if_pos rfl, hf]
    exact hfull.grow.imp_right fun ⟨r', last', rest'', hr, hholds⟩ => ⟨r', _, last', rest'', hr, hholds⟩
  · obtain ⟨f, hf, hfull⟩ := h.put hch
    rw [Reader.read, if_neg hch, hf]
    exact hfull.grow.imp_right fun ⟨r', last', rest', hr, hholds⟩ => ⟨r', _, last', rest', hr, hholds⟩

theorem foldlM (bytes : List Byte) : bytes.foldlM Reader.read r = none ∧ ¬Small (done ++ bytes) ∨
    ∃ r' init' last' rest', bytes.foldlM Reader.read r = some r' ∧ Holds r' (done ++ bytes) init' last' rest' := by
  induction bytes generalizing r done init last rest with
  | nil => exact .inr ⟨r, init, last, rest, rfl, by rwa [List.append_nil]⟩
  | cons ch bytes ih =>
    have hsplit : done ++ ch :: bytes = done ++ [ch] ++ bytes := by rw [List.append_assoc, List.singleton_append]
    rw [hsplit, List.foldlM_cons]
    rcases h.read ch with ⟨hnone, hlarge⟩ | ⟨r₁, init₁, last₁, rest₁, hread, h₁⟩
    · exact .inl ⟨by rw [hnone]; rfl, fun hsmall => hlarge (hsmall.of_prefix (List.prefix_append _ _))⟩
    · rw [hread]
      exact ih h₁

end

end Holds

theorem new_holds : ∃ f, File.new = some f ∧
    Holds ⟨f, 0⟩ [] [] Line.fresh (List.replicate 511 Line.fresh) := by
  refine ⟨⟨List.replicate 512 Line.fresh, 1⟩, rfl,
    ⟨⟨rfl, rfl, rfl, rfl, List.not_mem_nil, by simp, by decide, ?_, ⟨9, by decide, List.length_replicate⟩,
      ⟨7, by decide, rfl⟩⟩, by decide, ?_⟩⟩
  · exact fun l hl => List.eq_of_mem_replicate hl
  · exact List.cons_ne_nil _ _

/-- What is read of a file whose length, as an `int`, is `n`. -/
theorem fileRead_cases (hn : Ext2.toInt32 content.length = n) :
    fileRead content = none ∧ ¬Small (content.take n) ∨
      ∃ r init last rest, fileRead content = some r.file ∧ Holds r (content.take n) init last rest := by
  obtain ⟨f, hf, hnew⟩ := new_holds
  have hread : fileRead content = ((content.take n).foldlM Reader.read ⟨f, 0⟩).map (·.file) := by
    simp only [fileRead, hn, if_neg (Int.not_lt.mpr (Int.natCast_nonneg _)), Int.toNat_natCast, hf, Option.bind_some]
  rcases hnew.foldlM (content.take n) with ⟨hnone, hlarge⟩ | ⟨r, init, last, rest, hrun, hr⟩
  · exact .inl ⟨by rw [hread, hnone, Option.map_none], hlarge⟩
  · exact .inr ⟨r, init, last, rest, by rw [hread, hrun, Option.map_some], hr⟩

/-- The content that comes back: a newline is put behind a last line that has none. -/
def saved (content : List Byte) : List Byte :=
  if content = [] ∨ content.getLast? = some newline then content else content ++ [newline]

theorem fputs_eq {l : Line} (h : 0 ∉ l.text) : l.fputs = l.text :=
  List.takeWhile_eq_self_iff.mpr fun _ hb => decide_eq_true fun h0 => h (h0 ▸ hb)

theorem flatMap_fputs (h : 0 ∉ init.flatMap fun l => l.text ++ [newline]) :
    (init.flatMap fun l => l.fputs ++ [newline]) = init.flatMap fun l => l.text ++ [newline] := by
  refine List.flatMap_congr fun l hl => ?_
  rw [fputs_eq fun h0 => h (List.mem_flatMap.mpr ⟨l, hl, List.mem_append_left _ h0⟩)]

theorem saved_eq (h : Full r done init last rest) :
    saved done = (init.flatMap fun l => l.text ++ [newline]) ++
      if last.text.length ≠ 0 then last.text ++ [newline] else [] := by
  by_cases hnil : last.text = []
  · have hdone : done = init.flatMap fun l => l.text ++ [newline] := by rw [h.text, hnil, List.append_nil]
    have hends : done = [] ∨ done.getLast? = some newline := by
      rcases List.eq_nil_or_concat init with hinit | ⟨before, l, hinit⟩
      · exact .inl (by rw [hdone, hinit, List.flatMap_nil])
      · refine .inr ?_
        rw [hdone, hinit, List.concat_eq_append, List.flatMap_append, List.flatMap_singleton, ← List.append_assoc,
          List.getLast?_concat]
    rw [saved, if_pos hends, hnil, List.length_nil, if_neg (not_not.mpr rfl), List.append_nil, ← hdone]
  · have hends : ¬(done = [] ∨ done.getLast? = some newline) := by
      rw [h.text, List.getLast?_append_of_ne_nil _ hnil]
      rintro (hd | hd)
      · exact hnil (List.append_eq_nil_iff.mp hd).2
      · exact h.inner (List.mem_of_getLast? hd)
    rw [saved, if_neg hends, if_pos (mt List.length_eq_zero_iff.mp hnil), h.text, List.append_assoc]

theorem Holds.fileWrite (h : Holds r done init last rest) (hnul : 0 ∉ done) :
    Ted.fileWrite r.file = some (saved done) := by
  have hlast : r.file.line[r.file.size - 1]? = some last := by rw [h.size, Nat.add_sub_cancel, h.getElem_last]
  have hbefore : r.file.line.take (r.file.size - 1) = init := by
    rw [h.line, h.size, Nat.add_sub_cancel, List.take_left]
  rw [h.text, List.mem_append, not_or] at hnul
  simp only [Ted.fileWrite, hlast, hbefore, Option.bind_eq_bind, Option.bind_some]
  rw [flatMap_fputs hnul.1, fputs_eq hnul.2, saved_eq h.toFull]

theorem length_saved (content : List Byte) :
    content.length ≤ (saved content).length ∧ (saved content).length ≤ content.length + 1 := by
  unfold saved
  split
  · exact ⟨Nat.le_refl _, Nat.le_succ _⟩
  · simp

/-- Loading and saving gives the content back, with a newline at its end, exactly when no `int` overflows. -/
theorem save_read_iff (content : List Byte) (hnul : 0 ∉ content) :
    (fileRead content).bind fileWrite = some (saved content) ↔ Fits content := by
  by_cases hlt : content.length < 2 ^ 31
  · have hn : Ext2.toInt32 content.length = content.length := by
      rw [Ext2.toInt32, Nat.mod_eq_of_lt (by omega), if_pos hlt]
    have hcases := fileRead_cases hn
    rw [List.take_length] at hcases
    rcases hcases with ⟨hnone, hlarge⟩ | ⟨r, init, last, rest, hread, h⟩
    · rw [hnone]
      exact iff_of_false (by simp) fun hfits => hlarge hfits.toSmall
    · rw [hread, Option.bind_some, h.fileWrite hnul]
      exact iff_of_true rfl ⟨h.small, hlt⟩
  · refine iff_of_false (fun heq => ?_) fun hfits => hlt hfits.length
    by_cases hneg : Ext2.toInt32 content.length < 0
    · simp [fileRead, hneg] at heq
    obtain ⟨n, hn⟩ := Int.eq_ofNat_of_zero_le (Int.not_lt.mp hneg)
    -- The length has lost its upper bits: what is written is shorter than the content.
    have hshort : n + 1 < content.length := by
      unfold Ext2.toInt32 at hn hneg
      split at hn <;> omega
    rcases fileRead_cases hn with ⟨hnone, -⟩ | ⟨r, init, last, rest, hread, h⟩
    · simp [hnone] at heq
    rw [hread, Option.bind_some, h.fileWrite fun h0 => hnul (List.mem_of_mem_take h0)] at heq
    have hlen := congrArg List.length (Option.some.inj heq)
    have hless := (length_saved (content.take n)).2
    have hmore := (length_saved content).1
    rw [List.length_take] at hless
    omega

theorem save_read_two : (fileRead [97, newline, 98]).bind fileWrite = some [97, newline, 98, newline] :=
  (save_read_iff [97, newline, 98] (by decide)).mpr (Fits.of_length (by decide))

/-- The length of a file of 2^31 bytes is negative: no buffer is found for it. -/
def large : List Byte := List.replicate (2 ^ 31) 97

/-- A file without NUL that cannot be read. -/
theorem save_read_large : 0 ∉ large ∧ fileRead large = none := by
  have hlen : Ext2.toInt32 large.length < 0 := by
    rw [large, List.length_replicate]
    decide
  refine ⟨fun hmem => absurd (List.eq_of_mem_replicate hmem) (by decide), ?_⟩
  simp only [fileRead, if_pos hlen]

end Novino.Ted
