import Mathlib.Data.List.DropRight
import Novino.Theorems.Tokens

/-! Identification strings of a disk, which are trimmed in their own buffer. -/

namespace Novino.Libc

variable {buf l : List Byte} {n : Nat}

def trimmed (l : List Byte) : List Byte := (l.rdropWhile isspace).dropWhile isspace

theorem strlen_append (h : 0 ∉ l) (tail : List Byte) : strlen (l ++ 0 :: tail) = some l.length := by
  induction l with
  | nil => rfl
  | cons c l ih =>
    rw [List.mem_cons, not_or] at h
    rw [List.cons_append, strlen, if_neg (Ne.symm h.1), ih h.2]
    rfl

theorem startLoop_append (h : ∃ c ∈ l, isspace c = false) (tail : List Byte) :
    ∃ k, k ≤ l.length ∧ startLoop (l ++ tail) = some k ∧ l.drop k = l.dropWhile isspace := by
  induction l with
  | nil => simp at h
  | cons c l ih =>
    rw [List.cons_append, startLoop, List.dropWhile_cons]
    split
    · next hc =>
      obtain ⟨k, hk, hstart, hdrop⟩ := ih (by simpa [hc] using h)
      exact ⟨k + 1, Nat.succ_le_succ hk, by rw [hstart]; rfl, hdrop⟩
    · exact ⟨0, Nat.zero_le _, rfl, rfl⟩

theorem endLoop_append (l tail : List Byte) : endLoop (l ++ tail) l.length =
    if l.rdropWhile isspace = [] then none else some (l.rdropWhile isspace).length := by
  induction l using List.reverseRecOn generalizing tail with
  | nil => rfl
  | append_singleton l c ih =>
    have hlast : (l ++ [c] ++ tail)[l.length]? = some c := by simp
    rw [List.length_append, List.length_singleton, endLoop, hlast, Option.bind_some, List.rdropWhile_concat]
    split
    · rw [List.append_assoc]
      exact ih _
    · simp

theorem copyLoop_eq {dest start : Nat} (hdest : dest ≤ start) (hend : start + n < buf.length) :
    copyLoop dest start n buf =
      some (buf.take dest ++ (buf.drop start).take n ++ 0 :: buf.drop (dest + n + 1)) := by
  induction n generalizing dest start buf with
  | zero =>
    rw [copyLoop, if_pos (by omega), List.set_eq_take_append_cons_drop, if_pos (by omega)]
    simp
  | succ n ih =>
    have hstart : start < buf.length := by omega
    have htake : (buf.set dest buf[start]).take (dest + 1) = buf.take dest ++ [buf[start]] := by
      rw [List.set_eq_take_append_cons_drop, if_pos (by omega), List.take_append, List.take_take, List.length_take]
      simp [Nat.min_eq_left (hdest.trans hstart.le)]
    rw [copyLoop, List.getElem?_eq_getElem hstart, Option.bind_some, if_pos (by omega),
      ih (by omega) (by simpa using by omega), List.drop_set, if_pos (by omega), List.drop_set, if_pos (by omega),
        htake,
      List.drop_eq_getElem_cons hstart, List.take_succ_cons]
    simp [Nat.add_assoc, Nat.add_comm 1 n]

/-- `strtrim` stays inside the buffer and trims the string in it exactly if the string is empty or not all blank. -/
theorem strtrim_iff (h : 0 ∈ buf) :
    (∃ out, strtrim buf = some out ∧ out.length = buf.length ∧ cstr out 0 = trimmed (cstr buf 0)) ↔
      (cstr buf 0 = [] ∨ ∃ c ∈ cstr buf 0, isspace c = false) := by
  obtain ⟨tail, hbuf, hfree, hend⟩ := cstr_split buf 0
  generalize cstr buf 0 = l at *
  obtain rfl : buf = l ++ tail := hbuf
  obtain _ | ⟨c, tail⟩ := tail
  · exact absurd (List.append_nil l ▸ h) hfree
  obtain rfl : c = 0 := hend
  rw [strtrim, strlen_append hfree, Option.bind_some]
  split
  · next hnil =>
    obtain rfl := List.eq_nil_of_length_eq_zero hnil
    exact iff_of_true ⟨_, rfl, List.length_set, rfl⟩ (.inl rfl)
  · next hne =>
    rw [endLoop_append]
    split
    · next hall =>
      have hblank := List.rdropWhile_eq_nil_iff.mp hall
      refine iff_of_false ?_ ?_
      · rintro ⟨out, hout, -⟩
        simp at hout
      · rintro (rfl | ⟨c, hc, hnot⟩)
        · exact hne rfl
        · exact absurd (hblank c hc) (Bool.eq_false_iff.mp hnot)
    · next hsome =>
      have hlast := List.rdropWhile_last_not isspace l hsome
      obtain ⟨b, hb⟩ := List.rdropWhile_prefix isspace (l := l)
      have hmem := List.getLast_mem hsome
      rw [trimmed]
      generalize l.rdropWhile isspace = r at *
      subst hb
      obtain ⟨k, hk, hstart, hdrop⟩ := startLoop_append ⟨_, hmem, Bool.eq_false_iff.mpr hlast⟩ (b ++ 0 :: tail)
      have htext : ((r ++ (b ++ 0 :: tail)).drop k).take (r.length - k) = r.dropWhile isspace := by
        rw [List.drop_append_of_le_length hk, List.take_left' List.length_drop, hdrop]
      rw [List.append_assoc, hstart, Option.bind_some, Option.bind_some, copyLoop_eq (Nat.zero_le k) (by simp; omega),
        htext]
      refine iff_of_true ⟨_, rfl, ?_, ?_⟩ (.inr ⟨_, List.mem_append_left b hmem, Bool.eq_false_iff.mpr hlast⟩)
      · rw [← hdrop]
        simp
        omega
      · exact cstr_eq (i := 0) rfl (fun h0 => hfree (List.mem_append_left b ((List.dropWhile_sublist _).mem h0))) rfl

/-- The string is copied without the blanks around it exactly if it is empty or has another character. -/
theorem ataCopyString_iff (src : List (BitVec 16)) :
    (∃ out, ataCopyString src = some out ∧ out.length = 2 * src.length + 1 ∧
        cstr out 0 = trimmed (cstr (ataSwapped src) 0)) ↔
      (cstr (ataSwapped src) 0 = [] ∨ ∃ c ∈ cstr (ataSwapped src) 0, isspace c = false) := by
  have hlen : (ataSwapped src).length = 2 * src.length + 1 := by simp [ataSwapped, Nat.mul_comm]
  rw [ataCopyString, ← hlen]
  exact strtrim_iff (by simp [ataSwapped])

/-- A string of blanks only is left at its start, and the byte before it is read. -/
theorem ataCopyString_blank : ataCopyString [0x2020] = none := by decide

end Novino.Libc
