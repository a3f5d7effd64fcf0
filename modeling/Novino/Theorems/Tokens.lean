import Mathlib.Data.List.Basic
import Novino.Libc.Strings

/-! The tokens that a sequence of calls of `strtok_r` yields. -/

namespace Novino.Libc

variable {ct buf l : List Byte} {i n : Nat}

/-- The maximal parts of a string that are free of delimiters. -/
def fields (ct l : List Byte) : List (List Byte) := (l.splitOnP (ct.contains ·)).filter (· ≠ [])

/-! ### The string at a pointer -/

theorem cstr_eq {text tail : List Byte} (h : buf.drop i = text ++ tail) (htext : 0 ∉ text) (htail : tail.headD 0 = 0) :
    cstr buf i = text := by
  have hgood : ∀ c ∈ text, (c != 0) = true := fun c hc => bne_iff_ne.mpr (ne_of_mem_of_not_mem hc htext)
  rw [cstr, h, List.takeWhile_append_of_pos hgood]
  cases tail with
  | nil => exact List.append_nil text
  | cons c tail => simp_all

theorem cstr_split (buf : List Byte) (i : Nat) :
    ∃ tail, buf.drop i = cstr buf i ++ tail ∧ 0 ∉ cstr buf i ∧ tail.headD 0 = 0 := by
  refine ⟨(buf.drop i).dropWhile (· != 0), List.takeWhile_append_dropWhile.symm, fun h => ?_, ?_⟩
  · exact absurd (List.all_eq_true.mp List.all_takeWhile 0 h) (by decide)
  · have hhead := List.head?_dropWhile_not (· != 0) (buf.drop i)
    cases hd : (buf.drop i).dropWhile (· != 0) with
    | nil => rfl
    | cons c tail =>
      rw [hd] at hhead
      simpa using hhead

theorem cstr_add (h : n ≤ (cstr buf i).length) : cstr buf (i + n) = (cstr buf i).drop n := by
  obtain ⟨tail, hdrop, hfree, hend⟩ := cstr_split buf i
  have hrest : buf.drop (i + n) = (cstr buf i).drop n ++ tail := by
    rw [← List.drop_drop, hdrop, List.drop_append_of_le_length h]
  exact cstr_eq hrest (fun h0 => hfree (List.mem_of_mem_drop h0)) hend

theorem cstr_set (h : n < (cstr buf i).length) : cstr (buf.set (i + n) 0) i = (cstr buf i).take n := by
  obtain ⟨tail, hdrop, hfree, -⟩ := cstr_split buf i
  have hset : (buf.set (i + n) 0).drop i = (cstr buf i).take n ++ (0 :: (cstr buf i).drop (n + 1) ++ tail) := by
    rw [List.drop_set, if_neg (by omega), Nat.add_sub_cancel_left, hdrop, List.set_append_left _ _ h,
      List.set_eq_take_append_cons_drop, if_pos h, List.append_assoc]
  exact cstr_eq hset (fun h0 => hfree (List.mem_of_mem_take h0)) rfl

theorem cstr_set_behind {c : Byte} : cstr (buf.set n c) (n + 1) = cstr buf (n + 1) := by
  rw [cstr, List.drop_set, if_pos (Nat.lt_succ_self n)]
  rfl

theorem drop_skipLoop {p : List Byte} (hp : ∀ c, l.head? = some c → (c ∈ p ↔ c ∈ ct)) :
    l.drop (skipLoop ct p l) = l.dropWhile (ct.contains ·) := by
  fun_induction skipLoop ct p l with
  | case1 l =>
    cases l with
    | nil => rfl
    | cons c l => simp [← hp c rfl]
  | case2 => rfl
  | case3 p c str ih =>
    rw [List.drop_succ_cons, ih fun _ _ => Iff.rfl, List.dropWhile_cons_of_pos (by simp [← hp c rfl])]
  | case4 d p c str hne ih =>
    refine ih fun e he => ?_
    obtain rfl : c = e := Option.some.inj he
    simp [← hp c rfl, hne]

theorem skipLoop_le {p : List Byte} : skipLoop ct p l ≤ l.length := by
  fun_induction skipLoop ct p l <;> simp_all

theorem fields_dropWhile (ct l : List Byte) : fields ct (l.dropWhile (ct.contains ·)) = fields ct l := by
  induction l with
  | nil => rfl
  | cons c l ih =>
    rw [List.dropWhile_cons]
    split
    · next hc =>
      have hsplit := List.splitOnP_append_cons_of_forall_mem (List.forall_mem_nil fun x => ct.contains x = false) c hc l
      rw [ih, fields, fields, ← List.nil_append (c :: l), hsplit]
      rfl
    · rfl

theorem tokenLoop_none (h : tokenLoop ct l = none) : ∀ c ∈ l, ct.contains c = false := by
  fun_induction tokenLoop ct l <;> simp_all

theorem tokenLoop_some (h : tokenLoop ct l = some n) :
    ∃ c, l[n]? = some c ∧ c ∈ ct ∧ ∀ d ∈ l.take n, ct.contains d = false := by
  fun_induction tokenLoop ct l generalizing n with
  | case1 => cases h
  | case2 c l hc =>
    cases h
    exact ⟨c, rfl, by simpa using hc, by simp⟩
  | case3 c l hc ih =>
    obtain ⟨m, hm, rfl⟩ := Option.map_eq_some_iff.mp h
    obtain ⟨d, hd, hin, hfree⟩ := ih hm
    exact ⟨d, hd, hin, List.forall_mem_cons.mpr ⟨Bool.eq_false_iff.mpr hc, hfree⟩⟩

/-- What a call does from a saved pointer: nothing is left, or a last token, or one that ends at a delimiter. -/
theorem strtokR_cases (ct buf : List Byte) (i : Nat) :
    (fields ct (cstr buf i) = [] ∧ strtokR ct ⟨buf, some i⟩ none = (⟨buf, none⟩, none)) ∨
    (∃ n ≤ (cstr buf i).length, fields ct (cstr buf i) = [(cstr buf i).drop n] ∧
      strtokR ct ⟨buf, some i⟩ none = (⟨buf, none⟩, some (i + n))) ∨
    ∃ n m c, (cstr buf i)[n + m]? = some c ∧ c ∈ ct ∧
      fields ct (cstr buf i) = ((cstr buf i).drop n).take m :: fields ct ((cstr buf i).drop (n + m + 1)) ∧
      strtokR ct ⟨buf, some i⟩ none = (⟨buf.set (i + n + m) 0, some (i + n + m + 1)⟩, some (i + n)) := by
  have hskip : (cstr buf i).drop (skipLoop ct ct (cstr buf i)) = _ := drop_skipLoop fun _ _ => Iff.rfl
  have hfields := fields_dropWhile ct (cstr buf i)
  have hle : skipLoop ct ct (cstr buf i) ≤ (cstr buf i).length := skipLoop_le
  rw [← hskip] at hfields
  simp only [strtokR, Option.none_or, cstr_add hle]
  generalize skipLoop ct ct (cstr buf i) = n at *
  generalize cstr buf i = l at *
  split
  · next hnil => exact .inl ⟨by rw [← hfields, hnil]; rfl, rfl⟩
  · next hne =>
    split
    · next hnone =>
      refine .inr (.inl ⟨n, hle, ?_, rfl⟩)
      rw [← hfields, fields, List.splitOnP_eq_singleton (tokenLoop_none hnone)]
      simp [hne]
    · next m hsome =>
      obtain ⟨c, hc, hin, hfree⟩ := tokenLoop_some hsome
      -- the first character that is left is no delimiter
      have hm : m ≠ 0 := by
        rintro rfl
        have hhead := List.head?_dropWhile_not (ct.contains ·) l
        rw [← hskip, List.head?_eq_getElem?, hc] at hhead
        simp [hin] at hhead
      have hpart : l.drop n = (l.drop n).take m ++ c :: l.drop (n + m + 1) := by
        obtain ⟨hlt, rfl⟩ := List.getElem?_eq_some_iff.mp hc
        rw [Nat.add_assoc, ← List.drop_drop, ← List.drop_eq_getElem_cons, List.take_append_drop]
      refine .inr (.inr ⟨n, m, c, by rwa [List.getElem?_drop] at hc, hin, ?_, rfl⟩)
      have hsplit := List.splitOnP_append_cons_of_forall_mem hfree c (by simpa using hin) (l.drop (n + m + 1))
      rw [← hpart] at hsplit
      rw [← hfields, fields, hsplit, List.filter_cons_of_pos (by simp [hm, hne])]
      rfl

def rest (ct : List Byte) (s : Strtok) : List (List Byte) := s.sp.elim [] fun i => fields ct (cstr s.buf i)

def text (r : Strtok × Option Nat) : Option (List Byte) := r.2.map (cstr r.1.buf)

theorem strtokR_rest (ct : List Byte) (s : Strtok) :
    text (strtokR ct s none) = (rest ct s).head? ∧ rest ct (strtokR ct s none).1 = (rest ct s).tail := by
  obtain ⟨buf, _ | i⟩ := s
  · exact ⟨rfl, rfl⟩
  · unfold rest text
    obtain ⟨hnil, h⟩ | ⟨n, hn, hlast, h⟩ | ⟨n, m, c, hc, -, hcons, h⟩ := strtokR_cases ct buf i
    · simp [h, hnil]
    · simp [h, hlast, cstr_add hn]
    · have hlt := (List.getElem?_eq_some_iff.mp hc).1
      have htoken : cstr (buf.set (i + n + m) 0) (i + n) = ((cstr buf i).drop n).take m := by
        rw [cstr_set, cstr_add (by omega)]
        rw [cstr_add (by omega), List.length_drop]
        omega
      rw [h]
      show some (cstr _ (i + n)) = (fields ct (cstr buf i)).head? ∧
        fields ct (cstr _ (i + n + m + 1)) = (fields ct _).tail
      rw [hcons, htoken, cstr_set_behind, Nat.add_assoc i, Nat.add_assoc i, cstr_add hlt]
      exact ⟨rfl, rfl⟩

/-- A string that differs from the first one only in delimiters that are now NUL, and a pointer to its unread rest. -/
structure Kept (ct buf : List Byte) (s : Strtok) : Prop where
  length : s.buf.length = buf.length
  same (i : Nat) : s.buf[i]? = buf[i]? ∨ (∃ c ∈ ct, (cstr buf 0)[i]? = some c) ∧ s.buf[i]? = some 0
  unread : ∀ i ∈ s.sp, cstr s.buf i = (cstr buf 0).drop i

theorem Kept.strtokR {s : Strtok} (h : Kept ct buf s) : Kept ct buf (strtokR ct s none).1 := by
  obtain ⟨b, _ | i⟩ := s
  · exact h
  · obtain ⟨-, hout⟩ | ⟨n, -, -, hout⟩ | ⟨n, m, c, hc, hin, -, hout⟩ := strtokR_cases ct b i
    · exact hout ▸ ⟨h.length, h.same, by simp⟩
    · exact hout ▸ ⟨h.length, h.same, by simp⟩
    · have hunread := h.unread i rfl
      have hlt := (List.getElem?_eq_some_iff.mp hc).1
      rw [hout]
      refine ⟨List.length_set.trans h.length, fun j => ?_, ?_⟩
      · by_cases hj : i + n + m = j
        · subst hj
          have hroom := hlt.trans_le (List.takeWhile_prefix _).length_le
          rw [List.length_drop] at hroom
          rw [hunread, List.getElem?_drop, ← Nat.add_assoc] at hc
          exact .inr ⟨⟨c, hin, hc⟩, List.getElem?_set_self (by omega)⟩
        · rw [List.getElem?_set_ne hj]
          exact h.same j
      · rintro _ ⟨⟩
        rw [cstr_set_behind, Nat.add_assoc i, Nat.add_assoc i, cstr_add hlt, hunread, List.drop_drop]

theorem calls_spec (ct : List Byte) (s : Strtok) (k : Nat) :
    text (calls ct s k) = (fields ct (cstr s.buf 0))[k]? ∧
      rest ct (calls ct s k).1 = (fields ct (cstr s.buf 0)).drop (k + 1) ∧ Kept ct s.buf (calls ct s k).1 := by
  induction k with
  | zero =>
    obtain ⟨htext, hrest⟩ := strtokR_rest ct ⟨s.buf, some 0⟩
    have hkept : Kept ct s.buf ⟨s.buf, some 0⟩ := ⟨rfl, fun _ => .inl rfl, by rintro _ ⟨⟩; rfl⟩
    exact ⟨htext.trans List.head?_eq_getElem?, hrest.trans List.drop_one.symm, hkept.strtokR⟩
  | succ k ih =>
    obtain ⟨htext, hrest⟩ := strtokR_rest ct (calls ct s k).1
    rw [ih.2.1] at htext hrest
    exact ⟨htext.trans List.head?_drop, hrest.trans List.tail_drop, ih.2.2.strtokR⟩

/-- The `k`-th call returns the `k`-th field of the string, and only delimiters of the buffer are overwritten. -/
theorem calls_yield_fields (ct : List Byte) (s : Strtok) (k : Nat) :
    text (calls ct s k) = (fields ct (cstr s.buf 0))[k]? ∧ (calls ct s k).1.buf.length = s.buf.length ∧
      ∀ i : Nat, (calls ct s k).1.buf[i]? = s.buf[i]? ∨
        (∃ c ∈ ct, (cstr s.buf 0)[i]? = some c) ∧ (calls ct s k).1.buf[i]? = some 0 := by
  obtain ⟨htext, -, hkept⟩ := calls_spec ct s k
  exact ⟨htext, hkept.length, hkept.same⟩

end Novino.Libc
