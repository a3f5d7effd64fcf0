import Novino.Lib.Steps
import Novino.Yash.Prompt

/-! The line at the prompt stays inside its buffer, and its parts inside the tables of the parser. -/

namespace Novino.Yash
open Steps

def delimits (c : Char) : Bool := isspace c || isSpecial c

/-- What the inner loop leaves of a line from which it has taken `n` characters. -/
structure Scanned (tok str : List Char) (n : Nat) (tok' str' : List Char) : Prop where
  rest : str' = str.drop n
  le : n ≤ str.length
  len : tok'.length ≤ tok.length + n
  more : tok.length ≤ tok'.length

variable {tok str str' : List Char} {c : Char} {n : Nat} {f f' : Flags} {p : Parser}

theorem Scanned.cons {tok₁ tok' : List Char} (h : Scanned tok₁ str n tok' str')
    (hle : tok.length ≤ tok₁.length) (htok : tok₁.length ≤ tok.length + 1) :
    Scanned tok (c :: str) (n + 1) tok' str' where
  rest := h.rest
  le := Nat.succ_le_succ h.le
  len := by have := h.len; omega
  more := Nat.le_trans hle h.more

theorem Scanned.none (tok str : List Char) : Scanned tok str 0 tok str :=
    ⟨rfl, Nat.zero_le _, Nat.le_refl _, Nat.le_refl _⟩

theorem scan_operator (hf : f.special = 2) (tok str : List Char) :
    (scan f tok str).1.special = 2 ∧ ∃ n, Scanned tok str n (scan f tok str).2.1 (scan f tok str).2.2 := by
  induction str generalizing f tok with
  | nil => exact ⟨hf, 0, Scanned.none _ _⟩
  | cons c str ih =>
    unfold scan
    split_ifs with h₁ h₂ h₃ h₄ h₅
    · exact ⟨hf, 0, Scanned.none _ _⟩
    · obtain ⟨hs, n, h⟩ := ih (f := { f with escape := true }) hf tok
      exact ⟨hs, n + 1, h.cons (Nat.le_refl _) (Nat.le_succ _)⟩
    · exact absurd (hf.symm.trans h₄) (by decide)
    · obtain ⟨hs, n, h⟩ := ih (f := { f with special := 2 }) rfl (tok ++ [c])
      exact ⟨hs, n + 1, h.cons (by simp) (by simp)⟩
    · exact ⟨hf, 0, Scanned.none _ _⟩
    · exact absurd hf (by omega)
    · exact absurd hf (by omega)

def WordEnd (f : Flags) (str : List Char) : Prop :=
  str = [] ∧ f.special = 0 ∨ f.escape = false ∧ f.quote = none ∧ ∃ c ∈ str.head?,
    isspace c = true ∧ f.special = 0 ∨ isSpecial c = true ∧ f.special = 1

theorem scan_word (hf : f.special = 0) (tok str : List Char) :
    WordEnd (scan f tok str).1 (scan f tok str).2.2 ∧ ∃ n,
      Scanned tok str n (scan f tok str).2.1 (scan f tok str).2.2 := by
  induction str generalizing f tok with
  | nil => exact ⟨.inl ⟨rfl, hf⟩, 0, Scanned.none _ _⟩
  | cons c str ih =>
    have hmore {f' : Flags} {tok₁ : List Char} (hf' : f'.special = 0) (hle : tok.length ≤ tok₁.length)
        (htok : tok₁.length ≤ tok.length + 1) :
        WordEnd (scan f' tok₁ str).1 (scan f' tok₁ str).2.2 ∧
          ∃ n, Scanned tok (c :: str) n (scan f' tok₁ str).2.1 (scan f' tok₁ str).2.2 := by
      obtain ⟨hs, n, h⟩ := ih hf' tok₁
      exact ⟨hs, n + 1, h.cons hle htok⟩
    unfold scan
    split_ifs with h₁ h₂ h₃ h₄ h₅
    · simp only [Bool.and_eq_true, Option.isNone_iff_eq_none, Bool.not_eq_true'] at h₁
      exact ⟨.inr ⟨h₁.2, h₁.1.2, c, rfl, .inl ⟨h₁.1.1, hf⟩⟩, 0, Scanned.none _ _⟩
    · exact hmore hf (Nat.le_refl _) (Nat.le_succ _)
    · simp only [Bool.and_eq_true, Option.isNone_iff_eq_none, Bool.not_eq_true'] at h₃
      exact ⟨.inr ⟨h₃.1.2, h₃.2, c, rfl, .inr ⟨h₃.1.1, rfl⟩⟩, 0, Scanned.none _ _⟩
    · exact absurd hf h₄
    · split
      · exact hmore hf (Nat.le_refl _) (Nat.le_succ _)
      · exact hmore hf (Nat.le_refl _) (Nat.le_succ _)
    · exact hmore hf (by simp) (by simp)

/-- The tables after part of a line, of which `str` is left. Behind a word comes a character that ends it. -/
structure Bounded (p : Parser) (f : Flags) (str : List Char) : Prop where
  inside : p.inside = true
  buf : p.buf + 2 * str.length < 256
  cmds : p.cmds.length + str.countP delimits < 32
  operator : f.special = 0 ∨ f.special = 1 ∧ f.escape = false ∧ f.quote = none ∧ ∃ c ∈ str.head?, isSpecial c = true
  words : p.cmd.argv.length + str.countP delimits < 32 ∨ p.cmd.argv.length + str.countP delimits = 32 ∧
    (str = [] ∨ ∃ c ∈ str.head?, isspace c = true ∨ isSpecial c = true ∧ f.special = 1)

theorem isspace_of_isSpecial (h : isSpecial c = true) : isspace c = false ∧ (c == '\\') = false := by
  simp only [isSpecial, List.contains_eq_mem, List.mem_cons, List.not_mem_nil, or_false, decide_eq_true_eq] at h
  rcases h with rfl | rfl | rfl | rfl | rfl <;> decide

theorem Bounded.dropWhile (h : Bounded p f str) :
    Bounded p f (str.dropWhile isspace) ∧ (f.special = 0 → str.dropWhile isspace ≠ [] →
      p.cmd.argv.length + (str.dropWhile isspace).countP delimits < 32) := by
  cases str with
  | nil => exact ⟨h, fun _ hne => absurd rfl hne⟩
  | cons c str =>
    cases hc : isspace c with
    | false =>
      rw [List.dropWhile_cons_of_neg (by simp [hc])]
      refine ⟨h, fun hf _ => h.words.resolve_right ?_⟩
      rintro ⟨-, hnil | ⟨c', hc', hsp | hsp⟩⟩
      · cases hnil
      · obtain rfl : c = c' := Option.some.inj hc'
        rw [hc] at hsp
        cases hsp
      · exact absurd (hf.symm.trans hsp.2) (by decide)
    | true =>
      rw [List.dropWhile_cons_of_pos hc]
      have hsub := (List.dropWhile_sublist isspace (l := str))
      have hlen := hsub.length_le
      have hcount := hsub.countP_le (p := delimits)
      have hcons : (c :: str).countP delimits = str.countP delimits + 1 :=
        List.countP_cons_of_pos (by simp [delimits, hc])
      have hbuf := h.buf
      have hcmds := h.cmds
      have hop : f.special = 0 := by
        rcases h.operator with hop | ⟨-, -, -, c', hc', hsp⟩
        · exact hop
        · obtain rfl : c = c' := Option.some.inj hc'
          rw [(isspace_of_isSpecial hsp).1] at hc
          cases hc
      have hwords : p.cmd.argv.length + (str.dropWhile isspace).countP delimits < 32 := by
        rcases h.words with h | h <;> omega
      rw [List.length_cons] at hbuf
      exact ⟨⟨h.inside, by omega, by omega, .inl hop, .inl hwords⟩, fun _ _ => hwords⟩

theorem Bounded.operate
    (h : Bounded p f (c :: str)) (hc : isSpecial c = true) (hs : Scanned [c] str n tok str') (hf : f'.special = 2) :
    (p.token f' tok).1.inside = true ∧
      ((p.token f' tok).1.failed = false → Bounded (p.token f' tok).1 (p.token f' tok).2 str') := by
  have hcount : str'.countP delimits + 1 ≤ (c :: str).countP delimits := by
    rw [List.countP_cons_of_pos (by simp [delimits, hc]), hs.rest]
    exact Nat.succ_le_succ ((List.drop_sublist n str).countP_le)
  have hlen : tok.length + str'.length ≤ (c :: str).length := by
    have h₁ := hs.len
    have h₂ := hs.le
    rw [hs.rest, List.length_drop]
    simp only [List.length_cons, List.length_nil] at h₁ ⊢
    omega
  have hne : tok ≠ [] := List.ne_nil_of_length_pos (Nat.lt_of_lt_of_le Nat.zero_lt_one hs.more)
  have hbuf := h.buf
  have hcmds := h.cmds
  have hwords : p.cmd.argv.length + (c :: str).countP delimits ≤ 32 := by
    rcases h.words with h | h
    · exact Nat.le_of_lt h
    · exact Nat.le_of_eq h.1
  have hin : (p.inside && decide (p.buf + tok.length < 256)) = true := by simp [h.inside]; omega
  unfold Parser.token
  rw [if_neg hne, if_pos hf]
  split
  · exact ⟨hin, fun h => by cases h⟩
  · exact ⟨hin, fun _ => ⟨hin, by dsimp only; omega, by dsimp only; omega, .inl rfl, .inl (by dsimp only; omega)⟩⟩
  · dsimp only
    split
    · exact ⟨hin, fun h => by cases h⟩
    · have hin' : (p.inside && decide (p.buf + tok.length < 256) && decide (p.cmds.length + 1 < 32)) = true := by
        rw [hin, Bool.true_and, decide_eq_true_eq]
        omega
      refine ⟨hin', fun _ => ⟨hin', by dsimp only; omega, ?_, .inl rfl, .inl ?_⟩⟩
      · rw [List.length_append, List.length_singleton]
        omega
      · show 0 + str'.countP delimits < 32
        omega

theorem Bounded.word (h : Bounded p f str)
    (hwords : p.cmd.argv.length + str.countP delimits < 32) (hs : Scanned [] str n tok str') (hend : WordEnd f' str') :
    (p.token f' tok).1.inside = true ∧
      ((p.token f' tok).1.failed = false → Bounded (p.token f' tok).1 (p.token f' tok).2 str') := by
  have hcount : str'.countP delimits ≤ str.countP delimits := by
    rw [hs.rest]
    exact (List.drop_sublist n str).countP_le
  have hlen : str'.length + n = str.length := by
    have := hs.le
    rw [hs.rest, List.length_drop]
    omega
  have htok : tok.length ≤ n := by simpa using hs.len
  have hbuf := h.buf
  have hcmds := h.cmds
  have hop : f'.special = 0 ∨ f'.special = 1 ∧ f'.escape = false ∧ f'.quote = none ∧
      ∃ c ∈ str'.head?, isSpecial c = true := by
    rcases hend with ⟨-, hf⟩ | ⟨he, hq, c, hc, ⟨-, hf⟩ | ⟨hsp, hf⟩⟩
    · exact .inl hf
    · exact .inl hf
    · exact .inr ⟨hf, he, hq, c, hc, hsp⟩
  have hafter : str' = [] ∨ ∃ c ∈ str'.head?, isspace c = true ∨ isSpecial c = true ∧ f'.special = 1 := by
    rcases hend with ⟨hnil, -⟩ | ⟨-, -, c, hc, ⟨hsp, -⟩ | hsp⟩
    · exact .inl hnil
    · exact .inr ⟨c, hc, .inl hsp⟩
    · exact .inr ⟨c, hc, .inr hsp⟩
  have h2 : f'.special ≠ 2 := fun h2 => by
    rcases hop with hop | hop
    · exact absurd (hop.symm.trans h2) (by decide)
    · exact absurd (hop.1.symm.trans h2) (by decide)
  unfold Parser.token
  by_cases hnil : tok = []
  · rw [if_pos hnil]
    exact ⟨h.inside, fun _ => ⟨h.inside, by dsimp only; omega, by dsimp only; omega, hop, .inl (by dsimp only; omega)⟩⟩
  · rw [if_neg hnil, if_neg h2]
    have hpos : 0 < tok.length := List.length_pos_iff.mpr hnil
    have hin : (p.inside && decide (p.buf + tok.length < 256)) = true := by simp [h.inside]; omega
    have hin' : (p.inside && decide (p.buf + tok.length < 256) && decide (p.cmd.argv.length < 32)) = true := by
      rw [hin, Bool.true_and, decide_eq_true_eq]
      omega
    unfold Parser.word
    dsimp only
    split
    · split
      · exact ⟨hin, fun h => by cases h⟩
      · exact ⟨hin, fun _ => ⟨hin, by dsimp only; omega, by dsimp only; omega, hop, .inl (by dsimp only; omega)⟩⟩
    · split
      · exact ⟨hin, fun h => by cases h⟩
      · exact ⟨hin, fun _ => ⟨hin, by dsimp only; omega, by dsimp only; omega, hop, .inl (by dsimp only; omega)⟩⟩
    · refine ⟨hin', fun _ => ⟨hin', by dsimp only; omega, by dsimp only; omega, hop, ?_⟩⟩
      rw [List.length_append, List.length_singleton]
      rcases Nat.lt_or_ge (p.cmd.argv.length + 1 + str'.countP delimits) 32 with hlt | hge
      · exact .inl hlt
      · exact .inr ⟨by omega, hafter⟩

theorem Bounded.round (h : Bounded p f (c :: str))
    (hwords : f.special = 0 → p.cmd.argv.length + (c :: str).countP delimits < 32) :
    (p.token (scan f [] (c :: str)).1 (scan f [] (c :: str)).2.1).1.inside = true ∧
      ((p.token (scan f [] (c :: str)).1 (scan f [] (c :: str)).2.1).1.failed = false →
        Bounded (p.token (scan f [] (c :: str)).1 (scan f [] (c :: str)).2.1).1
          (p.token (scan f [] (c :: str)).1 (scan f [] (c :: str)).2.1).2 (scan f [] (c :: str)).2.2) := by
  rcases h.operator with hop | ⟨hop, he, hq, c', hc', hsp⟩
  · obtain ⟨hend, n, hs⟩ := scan_word hop [] (c :: str)
    exact h.word (hwords hop) hs hend
  · obtain rfl : c = c' := Option.some.inj hc'
    obtain ⟨hsp₁, hsp₂⟩ := isspace_of_isSpecial hsp
    obtain ⟨h2, n, hs⟩ := scan_operator (f := { f with special := 2 }) rfl [c] str
    have hscan : scan f [] (c :: str) = scan { f with special := 2 } [c] str := by
      rw [scan, hsp₁, hsp₂, hsp, he, hq, hop]
      rfl
    rw [hscan]
    exact h.operate hsp hs h2

theorem loop_inside (fuel : Nat) (h : Bounded p f str) :
    (p.loop fuel f str).1.inside = true := by
  induction fuel generalizing p f str with
  | zero => exact h.inside
  | succ fuel ih =>
    obtain ⟨hdrop, hwords⟩ := h.dropWhile
    unfold Parser.loop
    split
    · exact h.inside
    · rename_i c str' heq
      rw [heq] at hdrop hwords
      obtain ⟨hin, hnext⟩ := hdrop.round fun hf => hwords hf (by simp)
      dsimp only
      split
      · exact hin
      · rename_i hok
        exact ih (hnext (by simpa using hok))

/-- A line of at most 127 characters with at most 31 blanks and operator characters keeps to the tables. -/
theorem parse_inside (hlen : str.length < 128) (hcount : str.countP delimits < 32) :
    (parse str).1.inside = true :=
  loop_inside _ ⟨rfl, by dsimp only; omega, by simpa using hcount, .inl rfl, .inl (by simpa using hcount)⟩

namespace Prompt

/-- After the key the line fits its buffer; the word that a tab copies fits `abuf`, a line that is stored fits its
    allocation, and parsing a line keeps to the tables. -/
def Within (p : Prompt) (key : Key) : Prop :=
  (p.step key).line.length + 1 ≤ 128 ∧ (∀ text, key = .tab text → p.start ≠ 0 → p.word.length + 1 ≤ 64) ∧
    (key = .enter → (p.stores = true → p.line.length + 1 ≤ p.allocated) ∧ (parse p.line).1.inside = true)

/-- Characters are typed only while there is room, tabs only behind a word of at most 63 characters, and a line is ended
    only where it is not stored and has at most 31 blanks and operator characters. -/
def Short (p : Prompt) : Key → Prop
  | .char _ => p.line.length + 1 < 128
  | .tab text => p.start ≠ 0 → p.line.length + text.length < 128 ∧ p.word.length < 64
  | .enter => p.stores = false ∧ p.line.countP delimits < 32
  | _ => True

def Fits (p : Prompt) : Prop := p.line.length < 128 ∧ ∀ l ∈ p.hist, l.length < 128

theorem length_insert_le (p : Prompt) (c : Char) : (p.insert c).line.length ≤ p.line.length + 1 ∧
    (p.insert c).hist = p.hist := by
  unfold insert
  split
  · refine ⟨?_, rfl⟩
    simp only [List.length_append, List.length_cons, List.length_take, List.length_drop]
    omega
  · exact ⟨Nat.le_succ _, rfl⟩

theorem length_inserts_le (text : List Char) (p : Prompt) :
    (text.foldl insert p).line.length ≤ p.line.length + text.length ∧ (text.foldl insert p).hist = p.hist := by
  induction text generalizing p with
  | nil => exact ⟨Nat.le_refl _, rfl⟩
  | cons c text ih =>
    obtain ⟨hlen, hhist⟩ := length_insert_le p c
    obtain ⟨hlen', hhist'⟩ := ih (p.insert c)
    refine ⟨?_, hhist'.trans hhist⟩
    rw [List.foldl_cons, List.length_cons]
    omega

variable {p : Prompt} {key : Key}

theorem Fits.showEntry (h : p.Fits) (hpos : Nat) : (p.showEntry hpos).Fits := by
  refine ⟨?_, h.2⟩
  unfold Prompt.showEntry
  dsimp only
  rw [List.getD_eq_getElem?_getD]
  cases hl : p.hist[hpos]? with
  | none => simp
  | some l => exact h.2 l (List.mem_of_getElem? hl)

theorem Fits.step (h : p.Fits) (hk : p.Short key) : (p.step key).Fits := by
  have herase (i pos : Nat) : Fits { p with line := p.line.eraseIdx i, pos } :=
    ⟨Nat.lt_of_le_of_lt (List.length_eraseIdx_le _ _) h.1, h.2⟩
  cases key with
  | char c =>
    obtain ⟨hlen, hhist⟩ := length_insert_le p c
    exact ⟨Nat.lt_of_le_of_lt hlen hk, hhist ▸ h.2⟩
  | tab text =>
    simp only [Prompt.step]
    split
    · exact h
    · rename_i hstart
      obtain ⟨hlen, hhist⟩ := length_inserts_le text p
      exact ⟨Nat.lt_of_le_of_lt hlen (hk hstart).1, hhist ▸ h.2⟩
  | backspace =>
    simp only [Prompt.step]
    split
    · exact herase _ _
    · exact h
  | delete =>
    simp only [Prompt.step]
    split
    · exact herase _ _
    · exact h
  | left => exact h
  | right =>
    simp only [Prompt.step]
    split <;> exact h
  | home => exact h
  | ending => exact h
  | up =>
    simp only [Prompt.step]
    split
    · exact h.showEntry _
    · exact h
  | down =>
    simp only [Prompt.step]
    split_ifs
    · exact ⟨Nat.zero_lt_succ _, h.2⟩
    · exact h.showEntry _
    · exact h
  | enter =>
    have hpush : p.push = p.hist := by simp [push, hk.1]
    refine ⟨Nat.zero_lt_succ _, fun l hl => h.2 l ?_⟩
    rw [← hpush]
    exact hl

theorem Fits.within (h : p.Fits) (hk : p.Short key) : p.Within key := by
  refine ⟨(h.step hk).1, ?_, ?_⟩
  · rintro text rfl hstart
    exact (hk hstart).2
  rintro rfl
  exact ⟨fun hs => absurd (hs.symm.trans hk.1) (by decide), parse_inside h.1 hk.2⟩

end Prompt

end Novino.Yash
