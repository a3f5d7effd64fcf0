import Novino.Theorems.Writes

/-! What `term_stdout` and `mbtowc` do with arbitrary bytes. -/

namespace Novino.Term
open Libc

inductive Left : List (BitVec 8) → List (BitVec 8) → Prop
  | here {rest} : Left rest rest
  | later {seq rest ch s} : mbtowc seq = some (ch, s) → Left (seq.drop s) rest → Left seq rest

theorem mbtowc_zero_iff {rest : List (BitVec 8)} {ch : BitVec 32} {s : Nat} (h : mbtowc rest = some (ch, s)) :
    s = 0 ↔ rest.head? = some 0 := by
  cases rest with
  | nil => cases h
  | cons val rest =>
    rw [List.head?_cons, Option.some_inj]
    rw [mbtowc] at h
    by_cases hval : val < 128
    · rw [if_pos hval] at h
      cases h
      by_cases hzero : val = 0
      · subst hzero
        exact iff_of_true rfl rfl
      · have hpos : 0 < val := by bv_omega
        rw [if_pos hpos]
        exact iff_of_false Nat.one_ne_zero hzero
    · rw [if_neg hval] at h
      have hpos := (mbtowcLoop_append h []).2.2
      refine iff_of_false (Nat.pos_iff_ne_zero.mp hpos) ?_
      rintro rfl
      exact hval (by decide)

variable {σ : Type} {d : Display σ}

theorem all_isSome_iff {w : Stdout σ} (seq : List (BitVec 8)) :
    (w.all d seq).isSome ↔ ∀ rest, Left seq rest → rest.head? ≠ some 0 := by
  induction hn : seq.length using Nat.strong_induction_on generalizing w seq with
  | _ n ih =>
    cases hch : mbtowc seq with
    | none =>
      rw [Stdout.all, loop_none hch]
      refine iff_of_true rfl fun rest hrest => ?_
      cases hrest with
      | here => cases seq with
        | nil => exact Option.some_ne_none 0 |>.symm
        | cons val seq =>
          rintro hzero
          cases hzero
          cases hch
      | later h => cases hch.symm.trans h
    | some r =>
      rcases Nat.eq_zero_or_pos r.2 with hzero | hs
      · have hstuck : mbtowc seq = some (r.1, 0) := hzero ▸ hch
        rw [all_stuck hstuck]
        exact iff_of_false Bool.false_ne_true fun h => h seq .here ((mbtowc_zero_iff hch).mp hzero)
      · have hlt : (seq.drop r.2).length < n := by
          have hpos := length_pos hch
          rw [List.length_drop]
          omega
        rw [all_step hch hs, ih _ hlt (seq.drop r.2) rfl]
        refine ⟨fun h rest hrest => ?_, fun h rest hrest => h rest (.later hch hrest)⟩
        cases hrest with
        | here => exact mt (mbtowc_zero_iff hch).mpr (Nat.pos_iff_ne_zero.mp hs)
        | later hch' hrest =>
          cases hch.symm.trans hch'
          exact h rest hrest

/-- `term_stdout` returns, and each of its rounds stops or takes a byte, exactly when no round starts at a NUL. -/
theorem stdout_returns_iff (d : Display σ) (v : Vts σ) (seq : List (BitVec 8)) :
    ((termStdout d v seq).isSome ∧
      ∀ rest, Left seq rest → mbtowc rest = none ∨ ∃ ch s, mbtowc rest = some (ch, s) ∧ 0 < s) ↔
    ∀ rest, Left seq rest → rest.head? ≠ some 0 := by
  have hsome : (termStdout d v seq).isSome = ((v.start d).all d seq).isSome := Option.isSome_map
  rw [hsome, all_isSome_iff]
  refine and_iff_left_of_imp fun h rest hrest => ?_
  cases hch : mbtowc rest with
  | none => exact .inl rfl
  | some r =>
    exact .inr ⟨r.1, r.2, rfl, Nat.pos_of_ne_zero (mt (mbtowc_zero_iff hch).mp (h rest hrest))⟩

/-- A NUL takes no byte, and the write of one does not return. -/
theorem stdout_nul : mbtowc [0] = some (0, 0) ∧
    termStdout vga ⟨CURSOR, (vgaInit CURSOR true (fun _ => 0) fun _ => 0).clear vga⟩ [0] = none :=
  ⟨rfl, rfl⟩

end Novino.Term

namespace Novino.Libc

/-! ### Characters as bytes -/

def encode (c : Char) : List (BitVec 8) := (String.utf8EncodeChar c).map UInt8.toBitVec

theorem shiftLeft_ofNat (x k : Nat) : BitVec.ofNat 32 x <<< k = BitVec.ofNat 32 (2 ^ k * x) := by
  apply BitVec.eq_of_toNat_eq
  rw [BitVec.toNat_shiftLeft, BitVec.toNat_ofNat, BitVec.toNat_ofNat, Nat.shiftLeft_eq, Nat.mul_comm, Nat.mul_mod_mod]

variable {v x n : Nat} {t : BitVec 32} {c : Char} {b : BitVec 8} {rest : List (BitVec 8)}

theorem shiftRight_ofNat (k : Nat) (hv : v < 2 ^ 32) :
    BitVec.ofNat 32 v >>> k = BitVec.ofNat 32 (v / 2 ^ k) := by
  have hlt : v / 2 ^ k < 2 ^ 32 := Nat.lt_of_le_of_lt (Nat.div_le_self _ _) hv
  apply BitVec.eq_of_toNat_eq
  rw [BitVec.toNat_ushiftRight, BitVec.toNat_ofNat, BitVec.toNat_ofNat, Nat.mod_eq_of_lt hv, Nat.mod_eq_of_lt hlt,
    Nat.shiftRight_eq_div_pow]

theorem or_ofNat {w y k : Nat} (hy : y < 2 ^ k) :
    BitVec.ofNat w (2 ^ k * x) ||| BitVec.ofNat w y = BitVec.ofNat w (y + 2 ^ k * x) := by
  rw [← BitVec.ofNat_or, ← Nat.two_pow_add_eq_or_of_lt hy, Nat.add_comm]

theorem lead_byte (k a : Nat) (hx : x < 2 ^ k) :
    (BitVec.ofNat 32 (2 ^ k * a) ||| BitVec.ofNat 32 x).setWidth 8 = BitVec.ofNat 8 (x + 2 ^ k * a) := by
  rw [or_ofNat hx]
  exact BitVec.setWidth_ofNat_of_le (by decide) _

theorem tail_byte (x : Nat) :
    (0x80#32 ||| BitVec.ofNat 32 x &&& 0x3F).setWidth 8 = BitVec.ofNat 8 (x % 64 + 128) := by
  have hmask : BitVec.ofNat 32 x &&& 0x3F = BitVec.ofNat 32 (x % 2 ^ 6) := by
    rw [← Nat.and_two_pow_sub_one_eq_mod]
    exact BitVec.ofNat_and.symm
  rw [hmask]
  exact lead_byte 6 2 (Nat.mod_lt x (by decide))

theorem char_toBitVec (c : Char) : c.val.toBitVec = BitVec.ofNat 32 c.val.toNat :=
  (BitVec.setWidth_eq _).symm.trans (BitVec.ofNat_toNat 32 _).symm

theorem wctomb_char (c : Char) : wctomb c.val.toBitVec = some (encode c) := by
  have hvalid : c.val.toNat < 0xD800 ∨ 0xDFFF < c.val.toNat ∧ c.val.toNat < 0x110000 := c.valid
  have hc := char_toBitVec c
  unfold encode String.utf8EncodeChar
  generalize c.val.toNat = v at hc hvalid ⊢
  have hv : v < 2 ^ 32 := by omega
  have hlt (x : BitVec 32) : BitVec.ofNat 32 v < x ↔ v < x.toNat := by
    rw [BitVec.lt_def, BitVec.toNat_ofNat, Nat.mod_eq_of_lt hv]
  have hsurrogate : ¬(0xD800 ≤ BitVec.ofNat 32 v ∧ BitVec.ofNat 32 v ≤ 0xDFFF) := by bv_omega
  unfold wctomb
  rw [hc, if_neg hsurrogate]
  simp only [hlt, BitVec.reduceToNat, shiftRight_ofNat _ hv, tail_byte]
  split_ifs <;> try omega
  · exact congrArg (fun b => some [b]) (BitVec.setWidth_ofNat_of_le (by decide) v)
  · rw [Nat.mod_eq_of_lt (show v / 64 < 32 by omega)]
    exact congrArg (fun b => some [b, _]) (lead_byte 5 6 (show v / 64 < 32 by omega))
  · rw [Nat.mod_eq_of_lt (show v / 4096 < 16 by omega)]
    exact congrArg (fun b => some [b, _, _]) (lead_byte 4 14 (show v / 4096 < 16 by omega))
  · rw [Nat.mod_eq_of_lt (show v / 262144 < 8 by omega)]
    exact congrArg (fun b => some [b, _, _, _]) (lead_byte 3 30 (show v / 262144 < 8 by omega))

/-! ### Bytes as a character -/

theorem mbtowcLoop_end (ch : BitVec 32) (shift : Nat) (rest : List (BitVec 8))
    (ht : t &&& 0xC0 ≠ 0xC0) : mbtowcLoop t ch shift rest = some (mbtowcEnd t ch shift) := by
  cases rest with
  | nil => exact if_neg ht
  | cons val rest => exact if_neg ht

def next (t : BitVec 32) : BitVec 32 := t <<< 1 &&& 0xFF

theorem mbtowcLoop_tail (x ch shift : Nat) (rest : List (BitVec 8)) (ht : t &&& 0xC0 = 0xC0) :
    mbtowcLoop t (BitVec.ofNat 32 ch) shift (BitVec.ofNat 8 (x % 64 + 128) :: rest) =
      mbtowcLoop (next t) (BitVec.ofNat 32 (x % 64 + 2 ^ 6 * ch)) (shift + 1) rest := by
  have hbits : ∀ y < 64, BitVec.ofNat 8 (y + 128) &&& 0xC0 = 0x80 ∧
      (BitVec.ofNat 8 (y + 128) &&& 0x3F).setWidth 32 = BitVec.ofNat 32 y := by decide
  have hx : x % 64 < 2 ^ 6 := Nat.mod_lt x (by decide)
  rw [mbtowcLoop, if_pos ht, if_neg (not_not_intro (hbits _ hx).1), (hbits _ hx).2, shiftLeft_ofNat, or_ofNat hx, next]

/-- The first byte `val` of a character of `n + 1` bytes gives the loop `n` rounds, and leaves `x` at their end. -/
def Lead (val : BitVec 8) (n x : Nat) : Prop :=
  ¬val < 128 ∧ (∀ i < n, next^[i] (val.setWidth 32) &&& 0xC0 = 0xC0) ∧ next^[n] (val.setWidth 32) &&& 0xC0 ≠ 0xC0 ∧
    next^[n] (val.setWidth 32) >>> n &&& 0x3F >>> n = BitVec.ofNat 32 x

instance (val : BitVec 8) (n x : Nat) : Decidable (Lead val n x) :=
  inferInstanceAs (Decidable (_ ∧ _ ∧ _ ∧ _))

theorem mbtowcEnd_eq {ch : Nat} (shift : Nat) (hch : ch < 2 ^ (6 * shift))
    (ht : t >>> shift &&& 0x3F >>> shift = BitVec.ofNat 32 x) :
    mbtowcEnd t (BitVec.ofNat 32 ch) shift = (BitVec.ofNat 32 (ch + 2 ^ (6 * shift) * x), shift + 1) := by
  rw [mbtowcEnd, ht, shiftLeft_ofNat, BitVec.or_comm, or_ofNat hch]

def tail : Nat → List Nat → Nat
  | ch, [] => ch
  | ch, y :: ys => tail (y % 64 + 2 ^ 6 * ch) ys

theorem mbtowcLoop_tails (rest : List (BitVec 8)) (ys : List Nat) (t : BitVec 32) (ch shift : Nat)
    (hch : ch < 2 ^ (6 * shift)) (ht : ∀ i < ys.length, next^[i] t &&& 0xC0 = 0xC0)
    (hend : next^[ys.length] t &&& 0xC0 ≠ 0xC0) :
    mbtowcLoop t (BitVec.ofNat 32 ch) shift (ys.map (fun y => BitVec.ofNat 8 (y % 64 + 128)) ++ rest) =
        some (mbtowcEnd (next^[ys.length] t) (BitVec.ofNat 32 (tail ch ys)) (shift + ys.length)) ∧
      tail ch ys < 2 ^ (6 * (shift + ys.length)) := by
  induction ys generalizing t ch shift with
  | nil => exact ⟨mbtowcLoop_end _ _ _ hend, hch⟩
  | cons y ys ih =>
    have hch' : y % 64 + 2 ^ 6 * ch < 2 ^ (6 * (shift + 1)) := by
      rw [Nat.mul_succ, Nat.pow_add]
      have := Nat.mod_lt y (show 0 < 64 by decide)
      omega
    have hfirst : t &&& 0xC0 = 0xC0 := ht 0 (Nat.succ_pos _)
    have hstep := ih (next t) _ (shift + 1) hch' (fun i hi => ht (i + 1) (Nat.succ_lt_succ hi)) hend
    rw [List.map_cons, List.cons_append, mbtowcLoop_tail _ _ _ _ hfirst]
    rwa [Nat.add_assoc, Nat.add_comm 1] at hstep

theorem mbtowc_lead {val : BitVec 8} (ys : List Nat) (rest : List (BitVec 8)) (h : Lead val ys.length x)
    (hv : tail 0 ys + 2 ^ (6 * ys.length) * x = v) :
    mbtowc (val :: (ys.map (fun y => BitVec.ofNat 8 (y % 64 + 128)) ++ rest)) =
      some (BitVec.ofNat 32 v, ys.length + 1) := by
  obtain ⟨hlow, ht, hend, hx⟩ := h
  have hloop := mbtowcLoop_tails rest ys (val.setWidth 32) 0 0 (by decide) ht hend
  rw [Nat.zero_add] at hloop
  rw [← hv, ← mbtowcEnd_eq _ hloop.2 hx, mbtowc, if_neg hlow]
  exact hloop.1

theorem mbtowc_encode (c : Char) (rest : List (BitVec 8)) :
    mbtowc (encode c ++ rest) = some (c.val.toBitVec, if c.val = 0 then 0 else (encode c).length) := by
  have hvalid : c.val.toNat < 0xD800 ∨ 0xDFFF < c.val.toNat ∧ c.val.toNat < 0x110000 := c.valid
  have hzero : c.val = 0 ↔ c.val.toNat = 0 := UInt32.toNat_inj.symm
  have hc := char_toBitVec c
  unfold encode String.utf8EncodeChar
  generalize c.val.toNat = v at hc hvalid hzero ⊢
  simp only [hc, hzero]
  by_cases h1 : v ≤ 127
  · have hbyte : ∀ v < 128, BitVec.ofNat 8 v < 128 ∧
        ((BitVec.ofNat 8 v).setWidth 32, if 0 < BitVec.ofNat 8 v then 1 else 0) =
          (BitVec.ofNat 32 v, if v = 0 then 0 else 1) := by decide
    obtain ⟨hlow, hval⟩ := hbyte v (Nat.lt_succ_of_le h1)
    rw [if_pos h1]
    exact (if_pos hlow).trans (congrArg some hval)
  rw [if_neg (show v ≠ 0 by omega), if_neg h1]
  split_ifs with h2 h3
  · have hlead : ∀ x < 32, Lead (BitVec.ofNat 8 (x + 192)) 1 x := by decide
    exact mbtowc_lead [v] rest (hlead (v / 64 % 32) (Nat.mod_lt _ (by decide))) (by simp [tail]; omega)
  · have hlead : ∀ x < 16, Lead (BitVec.ofNat 8 (x + 224)) 2 x := by decide
    exact mbtowc_lead [v / 64, v] rest (hlead (v / 4096 % 16) (Nat.mod_lt _ (by decide))) (by simp [tail]; omega)
  · have hlead : ∀ x < 8, Lead (BitVec.ofNat 8 (x + 240)) 3 x := by decide
    exact mbtowc_lead [v / 4096, v / 64, v] rest (hlead (v / 262144 % 8) (Nat.mod_lt _ (by decide)))
      (by simp [tail]; omega)

def WellFormed (s : List (BitVec 8)) : Prop := ∃ c : Char, encode c <+: s

theorem isSome_of_wellFormed {s : List (BitVec 8)} (h : WellFormed s) : (mbtowc s).isSome := by
  obtain ⟨c, rest, rfl⟩ := h
  rw [mbtowc_encode]
  rfl

/-- The number of bytes that `mbtowc` asks for behind a first byte. -/
def behind (b : BitVec 8) : Nat :=
  if b < 0xC0 then 0 else if b < 0xE0 then 1 else if b < 0xF0 then 2 else if b < 0xF8 then 3 else if b < 0xFC then 4
  else if b < 0xFE then 5 else if b < 0xFF then 6 else 7

/-- The string goes on with `n` continuation bytes. -/
def Continues : Nat → List (BitVec 8) → Prop
  | 0, _ => True
  | _ + 1, [] => False
  | n + 1, c :: rest => (0x80 ≤ c ∧ c < 0xC0) ∧ Continues n rest

theorem mbtowcLoop_isSome_iff (rest : List (BitVec 8)) (ch : BitVec 32) (shift : Nat)
    (ht : ∀ i < n, next^[i] t &&& 0xC0 = 0xC0) (hend : next^[n] t &&& 0xC0 ≠ 0xC0) :
    (mbtowcLoop t ch shift rest).isSome ↔ Continues n rest := by
  have hcont : ∀ c : BitVec 8, c &&& 0xC0 ≠ 0x80 ↔ ¬(0x80 ≤ c ∧ c < 0xC0) := by decide +kernel
  induction n generalizing t ch shift rest with
  | zero =>
    rw [mbtowcLoop_end ch shift rest (show t &&& 0xC0 ≠ 0xC0 from hend)]
    exact iff_of_true rfl trivial
  | succ n ih =>
    have hmore : t &&& 0xC0 = 0xC0 := ht 0 (Nat.succ_pos _)
    cases rest with
    | nil =>
      rw [mbtowcLoop, if_pos hmore]
      exact iff_of_false Bool.false_ne_true id
    | cons c rest =>
      have hstep := ih rest (ch <<< 6 ||| (c &&& 0x3F).setWidth 32) (shift + 1)
        (fun i hi => ht (i + 1) (Nat.succ_lt_succ hi)) hend
      rw [mbtowcLoop, if_pos hmore, Continues]
      by_cases hc : c &&& 0xC0 ≠ 0x80
      · rw [if_pos hc]
        exact iff_of_false Bool.false_ne_true fun h => (hcont c).mp hc h.1
      · rw [if_neg hc, and_iff_right (not_not.mp (mt (hcont c).mpr hc))]
        exact hstep

theorem mbtowc_isSome_iff (b : BitVec 8) (rest : List (BitVec 8)) :
    (mbtowc (b :: rest)).isSome ↔ b < 128 ∨ Continues (behind b) rest := by
  have hrounds : ∀ b : BitVec 8, ¬b < 128 → (∀ i < behind b, next^[i] (b.setWidth 32) &&& 0xC0 = 0xC0) ∧
      next^[behind b] (b.setWidth 32) &&& 0xC0 ≠ 0xC0 := by decide +kernel
  rw [mbtowc]
  by_cases hb : b < 128
  · rw [if_pos hb]
    exact iff_of_true rfl (.inl hb)
  · rw [if_neg hb, mbtowcLoop_isSome_iff rest 0 0 (hrounds b hb).1 (hrounds b hb).2, or_iff_right hb]

/-- The first two bytes of the forms that are not UTF-8: stray continuation bytes, overlong forms, surrogates, and
values above 0x10FFFF. -/
def Forbidden (b : BitVec 8) (rest : List (BitVec 8)) : Prop :=
  0x80 ≤ b ∧ b < 0xC2 ∨ 0xF5 ≤ b ∨ ∃ c ∈ rest.head?,
    b = 0xE0 ∧ c < 0xA0 ∨ b = 0xED ∧ 0xA0 ≤ c ∨ b = 0xF0 ∧ c < 0x90 ∨ b = 0xF4 ∧ 0x90 ≤ c

theorem encode_eq (hv : c.val.toNat = v) : encode c =
    if v ≤ 127 then [BitVec.ofNat 8 v]
    else if v ≤ 2047 then [BitVec.ofNat 8 (v / 64 % 32 + 192), BitVec.ofNat 8 (v % 64 + 128)]
    else if v ≤ 65535 then
      [BitVec.ofNat 8 (v / 4096 % 16 + 224), BitVec.ofNat 8 (v / 64 % 64 + 128), BitVec.ofNat 8 (v % 64 + 128)]
    else [BitVec.ofNat 8 (v / 262144 % 8 + 240), BitVec.ofNat 8 (v / 4096 % 64 + 128),
      BitVec.ofNat 8 (v / 64 % 64 + 128), BitVec.ofNat 8 (v % 64 + 128)] := by
  subst hv
  unfold encode String.utf8EncodeChar
  dsimp only
  split_ifs <;> rfl

theorem not_forbidden_of_encode {tl : List (BitVec 8)} (h : encode c ++ rest = b :: tl) :
    ¬Forbidden b tl := by
  have hvalid : c.val.toNat < 0xD800 ∨ 0xDFFF < c.val.toNat ∧ c.val.toNat < 0x110000 := c.valid
  rw [encode_eq rfl] at h
  generalize c.val.toNat = v at hvalid h
  split_ifs at h with h1 h2 h3 <;> obtain ⟨rfl, rfl⟩ := List.cons.inj h <;> rintro (h | h | ⟨d, hd, h⟩)
  all_goals first
    | bv_omega
    | obtain rfl := Option.some.inj hd
      bv_omega

theorem exists_char (h : v < 0xD800 ∨ 0xDFFF < v ∧ v < 0x110000) : ∃ c : Char, c.val.toNat = v :=
  ⟨⟨UInt32.ofNatLT v (show v < 2 ^ 32 by omega), h⟩, rfl⟩

theorem Continues.cons (h : Continues (n + 1) rest) :
    ∃ c tl, rest = c :: tl ∧ 0x80 ≤ c ∧ c < 0xC0 ∧ Continues n tl := by
  cases rest with
  | nil => exact h.elim
  | cons c tl => exact ⟨c, tl, rfl, h.1.1, h.1.2, h.2⟩

/-- The bytes are those of the character whose value they give. -/
theorem wellFormed_of_bytes (h : b < 128 ∨ Continues (behind b) rest)
    (hb : ¬Forbidden b rest) : WellFormed (b :: rest) := by
  by_cases h1 : b < 128
  · obtain ⟨ch, hv⟩ := exists_char (v := b.toNat) (by bv_omega)
    refine ⟨ch, rest, ?_⟩
    rw [encode_eq hv, if_pos (by bv_omega), BitVec.ofNat_toNat, BitVec.setWidth_eq]
    rfl
  have h := h.resolve_left h1
  have hhead : 0xC2 ≤ b ∧ b < 0xF5 := by
    unfold Forbidden at hb
    bv_omega
  by_cases h2 : b < 0xE0
  · have hn : behind b = 1 := by rw [behind, if_neg (by bv_omega), if_pos h2]
    rw [hn] at h
    obtain ⟨c, tl, rfl, hc, hc', -⟩ := h.cons
    obtain ⟨ch, hv⟩ := exists_char (v := (b.toNat - 192) * 64 + (c.toNat - 128)) (by bv_omega)
    refine ⟨ch, tl, ?_⟩
    rw [encode_eq hv, if_neg (by bv_omega), if_pos (by bv_omega)]
    simp only [List.cons_append, List.nil_append, List.cons.injEq, and_true]
    refine ⟨?_, ?_⟩ <;> bv_omega
  by_cases h3 : b < 0xF0
  · have hn : behind b = 2 := by rw [behind, if_neg (by bv_omega), if_neg h2, if_pos h3]
    rw [hn] at h
    obtain ⟨c, tl, rfl, hc, hc', h⟩ := h.cons
    obtain ⟨d, tl, rfl, hd, hd', -⟩ := h.cons
    have hrange : (b = 0xE0 → 0xA0 ≤ c) ∧ (b = 0xED → c < 0xA0) := by
      unfold Forbidden at hb
      simp only [List.head?_cons, Option.mem_def, Option.some.injEq, exists_eq_left'] at hb
      bv_omega
    obtain ⟨ch, hv⟩ := exists_char (v := (b.toNat - 224) * 4096 + (c.toNat - 128) * 64 + (d.toNat - 128)) (by bv_omega)
    refine ⟨ch, tl, ?_⟩
    rw [encode_eq hv, if_neg (by bv_omega), if_neg (by bv_omega), if_pos (by bv_omega)]
    simp only [List.cons_append, List.nil_append, List.cons.injEq, and_true]
    refine ⟨?_, ?_, ?_⟩ <;> bv_omega
  · have hn : behind b = 3 := by rw [behind, if_neg (by bv_omega), if_neg h2, if_neg h3, if_pos (by bv_omega)]
    rw [hn] at h
    obtain ⟨c, tl, rfl, hc, hc', h⟩ := h.cons
    obtain ⟨d, tl, rfl, hd, hd', h⟩ := h.cons
    obtain ⟨e, tl, rfl, he, he', -⟩ := h.cons
    have hrange : (b = 0xF0 → 0x90 ≤ c) ∧ (b = 0xF4 → c < 0x90) := by
      unfold Forbidden at hb
      simp only [List.head?_cons, Option.mem_def, Option.some.injEq, exists_eq_left'] at hb
      bv_omega
    obtain ⟨ch, hv⟩ := exists_char
      (v := (b.toNat - 240) * 262144 + (c.toNat - 128) * 4096 + (d.toNat - 128) * 64 + (e.toNat - 128)) (by bv_omega)
    refine ⟨ch, tl, ?_⟩
    rw [encode_eq hv, if_neg (by bv_omega), if_neg (by bv_omega), if_neg (by bv_omega)]
    simp only [List.cons_append, List.nil_append, List.cons.injEq, and_true]
    refine ⟨?_, ?_, ?_, ?_⟩ <;> bv_omega

/-- A string that `mbtowc` reads as a character although it does not start with one. -/
def Misread : List (BitVec 8) → Prop
  | [] => False
  | b :: rest => Continues (behind b) rest ∧ Forbidden b rest

theorem accepts_wellFormed_iff (s : List (BitVec 8)) : ((mbtowc s).isSome ↔ WellFormed s) ↔ ¬Misread s := by
  cases s with
  | nil => exact iff_of_true (iff_of_false Bool.false_ne_true fun h => Bool.false_ne_true (isSome_of_wellFormed h)) id
  | cons b rest =>
    rw [mbtowc_isSome_iff]
    constructor
    · rintro hiff ⟨hcont, hforbidden⟩
      obtain ⟨c, tl, h⟩ := hiff.mp (.inr hcont)
      exact not_forbidden_of_encode h hforbidden
    · intro hread
      refine ⟨fun hacc => wellFormed_of_bytes hacc fun hforbidden => ?_, fun hwf => ?_⟩
      · refine hread ⟨hacc.resolve_left fun hlow => ?_, hforbidden⟩
        rcases hforbidden with h | h | ⟨c, -, h⟩ <;> bv_omega
      · rw [← mbtowc_isSome_iff]
        exact isSome_of_wellFormed hwf

/-- `mbtowc` accepts exactly the well-formed strings, but for those that it misreads; the bytes of `wctomb` are read
back,
but for those of NUL. -/
theorem mbtowc_accepts_iff (s : List (BitVec 8)) (c : Char) :
    (((mbtowc s).isSome ↔ WellFormed s) ↔ ¬Misread s) ∧
    wctomb c.val.toBitVec = some (encode c) ∧
      (mbtowc (encode c) = some (c.val.toBitVec, (encode c).length) ↔ c.val ≠ 0) := by
  refine ⟨accepts_wellFormed_iff s, wctomb_char c, ?_⟩
  have hread := mbtowc_encode c []
  have hlen : (encode c).length ≠ 0 := by
    rw [encode, List.length_map, String.length_utf8EncodeChar]
    exact c.utf8Size_pos.ne'
  rw [List.append_nil] at hread
  rw [hread]
  by_cases hc : c.val = 0 <;> simp [hc, hlen.symm]

/-- A continuation byte alone is read as the character 0. -/
theorem mbtowc_stray : mbtowc [0x80] = some (0, 1) ∧ ¬WellFormed [0x80] :=
  ⟨rfl, fun ⟨_, _, h⟩ => not_forbidden_of_encode h (.inl (by decide))⟩

end Novino.Libc

namespace Novino.Term
open Libc

/-- A text is decoded as a whole: `term_stdout` handles its characters one after the other and returns. -/
theorem stdout_text {σ : Type} (d : Display σ) (v : Vts σ) (cs : List { c : Char // c.val ≠ 0 }) :
    termStdout d v (cs.flatMap (encode ·.val)) =
      some (v.finish d (cs.foldl (fun w c => w.feed d c.val.val.toBitVec) (v.start d))) := by
  have hall : ∀ w : Stdout σ, w.all d (cs.flatMap (encode ·.val)) =
      some (cs.foldl (fun w c => w.feed d c.val.val.toBitVec) w) := by
    induction cs with
    | nil => exact fun w => rfl
    | cons c cs ih =>
      intro w
      have hch := mbtowc_encode c (cs.flatMap (encode ·.val))
      rw [if_neg c.property] at hch
      have hlen : 0 < (encode c).length := by
        rw [encode, List.length_map, String.length_utf8EncodeChar]
        exact c.val.utf8Size_pos
      rw [List.flatMap_cons, all_step hch hlen, List.drop_left, ih, List.foldl_cons]
  exact congrArg (Option.map (v.finish d)) (hall (v.start d))

end Novino.Term
