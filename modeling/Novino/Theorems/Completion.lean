import Mathlib.Data.List.Permutation
import Mathlib.Order.WellFoundedSet
import Novino.Yash.Auto

/-! The names that the shell suggests are sorted, and what it completes a name to. -/

namespace Novino.Yash

open Libc

def key (d : Dirent) : List Nat := d.name.map fun c => (tolower c).toNat

theorem strcasecmp_pos {a b : Dirent} : strcasecmp a.name b.name > 0 ↔ key b < key a := by
  unfold key
  generalize a.name = s, b.name = t
  fun_induction strcasecmp s t with
  | case1 => simp
  | case2 => simp
  | case3 => simp
  | case4 a s b t heq ih => simp [ih, heq]
  | case5 a s b t hne hlt =>
    have hnat : (tolower a).toNat < (tolower b).toNat := hlt
    simp [List.cons_lt_cons_iff]
    omega
  | case6 a s b t hne hle =>
    have hnat : ¬(tolower a).toNat < (tolower b).toNat := hle
    have := mt BitVec.eq_of_toNat_eq hne
    simp [List.cons_lt_cons_iff]
    omega

/-! ### list_sort -/

variable {gap : Nat} {l : List Dirent}

theorem set_set_lt {α : Type*} [LinearOrder α] {l : List α} {i : Nat} {a b : α} (ha : l[i]? = some a) (hlt : b < a)
    (c : α) : (l.set i b).set (i + (gap + 1)) c < l := by
  induction l generalizing i with
  | nil => cases ha
  | cons d l ih =>
    cases i with
    | zero =>
      cases ha
      rw [List.set_cons_zero, Nat.zero_add, List.set_cons_succ]
      exact List.cons_lt_cons_iff.mpr (.inl hlt)
    | succ i =>
      rw [List.set_cons_succ, Nat.succ_add, List.set_cons_succ]
      exact List.cons_lt_cons_iff.mpr (.inr ⟨rfl, ih ha⟩)

/-- No two names at a distance of `gap` from an index of `is` are in the wrong order. -/
def InOrder (gap : Nat) (is : List Nat) (l : List Dirent) : Prop :=
  ∀ i ∈ is, ∀ a b, l[i]? = some a → l[i + gap]? = some b → key a ≤ key b

/-- The list `t` comes from `s` by exchanges, each of which puts the smaller name in front. -/
def Swapped (s t : List Dirent) : Prop := t.Perm s ∧ t.map key < s.map key

theorem compareAt_cases (gap : Nat) (s : List Dirent × Bool) (i : Nat) :
    (compareAt (gap + 1) s i = s ∧ InOrder (gap + 1) [i] s.1) ∨
      (compareAt (gap + 1) s i).2 = false ∧ Swapped s.1 (compareAt (gap + 1) s i).1 := by
  unfold compareAt InOrder
  split
  · next a b ha hb =>
    split
    · next hpos =>
      refine .inr ⟨rfl, ?_, ?_⟩
      · obtain ⟨hi, rfl⟩ := List.getElem?_eq_some_iff.mp ha
        obtain ⟨hj, rfl⟩ := List.getElem?_eq_some_iff.mp hb
        exact List.set_set_perm hi hj
      · rw [List.map_set, List.map_set]
        exact set_set_lt (by rw [List.getElem?_map, ha]; rfl) (strcasecmp_pos.mp hpos) _
    · next hle =>
      refine .inl ⟨rfl, ?_⟩
      simpa [ha, hb] using le_of_not_gt (mt strcasecmp_pos.mpr hle)
  · next hnone =>
    refine .inl ⟨rfl, fun j hj a b ha hb => ?_⟩
    obtain rfl := List.mem_singleton.mp hj
    exact absurd hb (hnone a b ha)

theorem foldl_compareAt (gap : Nat) (is : List Nat) (s : List Dirent × Bool) :
    (is.foldl (compareAt (gap + 1)) s = s ∧ InOrder (gap + 1) is s.1) ∨
      (is.foldl (compareAt (gap + 1)) s).2 = false ∧ Swapped s.1 (is.foldl (compareAt (gap + 1)) s).1 := by
  induction is generalizing s with
  | nil => exact .inl ⟨rfl, by simp [InOrder]⟩
  | cons i is ih =>
    rw [List.foldl_cons]
    obtain ⟨hsame, hi⟩ | ⟨hflag, hperm, hlt⟩ := compareAt_cases gap s i
    · rw [hsame]
      exact (ih s).imp_left fun ⟨h, his⟩ => ⟨h, by simpa [InOrder] using ⟨by simpa [InOrder] using hi, his⟩⟩
    · obtain ⟨h, -⟩ | ⟨h, hperm', hlt'⟩ := ih (compareAt (gap + 1) s i)
      · exact .inr (h.symm ▸ ⟨hflag, hperm, hlt⟩)
      · exact .inr ⟨h, hperm'.trans hperm, hlt'.trans hlt⟩

theorem pairwise_of_inOrder (h : InOrder 1 (List.range (l.length - 1)) l) :
    l.Pairwise fun a b => strcasecmp a.name b.name ≤ 0 := by
  have : Trans (fun a b : Dirent => key a ≤ key b) (fun a b => key a ≤ key b) (fun a b => key a ≤ key b) := ⟨le_trans⟩
  have hchain : l.IsChain fun a b => key a ≤ key b := by
    rw [List.isChain_iff_getElem]
    intro i hi
    exact h i (List.mem_range.mpr (Nat.lt_sub_of_add_lt hi)) _ _ (List.getElem?_eq_getElem _)
      (List.getElem?_eq_getElem hi)
  exact hchain.pairwise.imp fun hab => not_lt.mp (mt strcasecmp_pos.mp (not_lt.mpr hab))

/-- From a gap and a list the outer loop ends with a sorted list, whatever more fuel it has. -/
def Sorts (gap : Nat) (l : List Dirent) : Prop :=
  ∃ n, ∀ more, ∃ out, sortLoop (more + n) gap l = some out ∧ out.Perm l ∧
    out.Pairwise fun a b => strcasecmp a.name b.name ≤ 0

theorem Sorts.turn (hflag : (pass (nextGap gap).1 l (nextGap gap).2).2 = false)
    (hperm : (pass (nextGap gap).1 l (nextGap gap).2).1.Perm l)
    (h : Sorts (nextGap gap).1 (pass (nextGap gap).1 l (nextGap gap).2).1) : Sorts gap l := by
  obtain ⟨n, h⟩ := h
  refine ⟨n + 1, fun more => ?_⟩
  obtain ⟨out, hout, hperm', hsorted⟩ := h more
  refine ⟨out, ?_, hperm'.trans hperm, hsorted⟩
  rw [← Nat.add_assoc, sortLoop]
  simp [hflag, hout]

/-- With a gap of 1 each pass ends the loop or makes the list of names smaller in the lexicographic order. -/
theorem sorts_of_gap_le_one {l₀ : List Dirent} (hl : l.Perm l₀) (hgap : gap ≤ 1) : Sorts gap l := by
  have hfinite : {l : List Dirent | l ∈ l₀.permutations}.Finite := List.finite_toSet _
  have hwf := hfinite.wellFoundedOn (r := Order.Preimage (List.map key) (· < ·))
  refine hwf.induction (P := fun l => ∀ gap ≤ 1, Sorts gap l) (List.mem_permutations.mpr hl)
    (fun l hl ih gap hgap => ?_)
    gap hgap
  have hnext : nextGap gap = (1, true) := if_pos (by omega)
  obtain ⟨hsame, hsorted⟩ | ⟨hflag, hperm, hlt⟩ := foldl_compareAt 0 (List.range (l.length - 1)) (l, true)
  · refine ⟨1, fun more => ⟨l, ?_, .refl l, pairwise_of_inOrder hsorted⟩⟩
    rw [sortLoop, hnext]
    simp [pass, hsame]
  · refine Sorts.turn (by rwa [hnext]) (by rwa [hnext]) ?_
    rw [hnext]
    exact ih _ (List.mem_permutations.mpr (hperm.trans (List.mem_permutations.mp hl))) hlt 1 le_rfl

theorem sorts (gap : Nat) (l : List Dirent) : Sorts gap l := by
  induction gap using Nat.strong_induction_on generalizing l with
  | _ gap ih =>
    by_cases hgap : gap ≤ 1
    · exact sorts_of_gap_le_one (.refl l) hgap
    · obtain ⟨next, hnext, hlt⟩ : ∃ next, nextGap gap = (next + 1, false) ∧ next + 1 < gap := by
        unfold nextGap
        rw [if_neg (by omega)]
        split
        · exact ⟨10, rfl, by omega⟩
        · exact ⟨10 * gap / 13 - 1, by rw [Nat.sub_add_cancel (by omega)], by omega⟩
      have hpass := foldl_compareAt next (List.range (l.length - (next + 1))) (l, false)
      refine Sorts.turn ?_ ?_ (by rw [hnext]; exact ih _ hlt _)
      · rw [hnext]
        exact hpass.elim (fun h => congrArg Prod.snd h.1) (fun h => h.1)
      · rw [hnext]
        exact hpass.elim (fun h => .of_eq (congrArg Prod.fst h.1)) (fun h => h.2.1)

/-- The comb sort ends, for enough rounds and any more of them, with the same entries in the order of their names. -/
theorem listSort_sorts (l : List Dirent) :
    ∃ n, ∀ more, ∃ out, listSort (more + n) l = some out ∧ out.Perm l ∧
      out.Pairwise fun a b => strcasecmp a.name b.name ≤ 0 :=
  sorts l.length l

/-- The suggestions do not depend on the order of the directory, where no two names differ only in the case of
letters. -/
theorem listSort_unique {l' : List Dirent} (hperm : l.Perm l') (hcase : ∀ a ∈ l, ∀ b ∈ l, key a = key b → a = b) :
    ∃ n out, ∀ more, listSort (more + n) l = some out ∧ listSort (more + n) l' = some out := by
  obtain ⟨n, hn⟩ := sorts l.length l
  obtain ⟨n', hn'⟩ := sorts l'.length l'
  obtain ⟨out, -, hout, hsorted⟩ := hn 0
  have hsame : ∀ out', out'.Perm l → (out'.Pairwise fun a b => strcasecmp a.name b.name ≤ 0) → out' = out := by
    intro out' hperm' hsorted'
    refine (hperm'.trans hout.symm).eq_of_pairwise (fun a b ha hb hab hba => ?_) hsorted' hsorted
    have hle := not_lt.mp (mt strcasecmp_pos.mpr (not_lt.mpr hab))
    have hge := not_lt.mp (mt strcasecmp_pos.mpr (not_lt.mpr hba))
    exact hcase a (hperm'.mem_iff.mp ha) b (hout.mem_iff.mp hb) (le_antisymm hle hge)
  refine ⟨n' + n, out, fun more => ⟨?_, ?_⟩⟩
  · obtain ⟨out₁, heq, hperm₁, hsorted₁⟩ := hn (more + n')
    rw [← hsame out₁ hperm₁ hsorted₁, ← Nat.add_assoc]
    exact heq
  · obtain ⟨out₂, heq, hperm₂, hsorted₂⟩ := hn' (more + n)
    rw [← hsame out₂ (hperm₂.trans hperm.symm) hsorted₂, Nat.add_comm n', ← Nat.add_assoc]
    exact heq

theorem listSort_unique_two :
    ∃ n out, ∀ more, listSort (more + n) [⟨[0x62], true⟩, ⟨[0x41], true⟩] = some out ∧
      listSort (more + n) [⟨[0x41], true⟩, ⟨[0x62], true⟩] = some out :=
  listSort_unique (.swap _ _ []) (by decide)

/-! ### autocomplete -/

variable {str q : List Byte}

/-- The completion of a text: nothing without a name that fits, the rest of the only one with its mark, and otherwise
the rest of the longest common start. -/
structure Completes (str : List Byte) (found : List Dirent) (out : Option (List Byte)) : Prop where
  absent : found = [] → out = none
  single : ∀ d, found = [d] → out = some (d.marked.drop str.length)
  several : 1 < found.length → ∃ p, (∀ q, q <+: p ↔ ∀ d ∈ found, q <+: d.name) ∧
    out = if str.length < p.length then some (p.drop str.length) else none

theorem Completes.perm {found found' : List Dirent} {out : Option (List Byte)} (h : Completes str found out)
    (hperm : found.Perm found') : Completes str found' out where
  absent hnil := h.absent (hnil ▸ hperm).eq_nil
  single d hd := h.single d (List.perm_singleton.mp (hd ▸ hperm))
  several hlen := by simpa only [hperm.mem_iff] using h.several (hperm.length_eq ▸ hlen)

theorem prefix_common {a b : List Byte} : q <+: common a b ↔ q <+: a ∧ q <+: b := by
  induction q generalizing a b with
  | nil => simp
  | cons c q ih =>
    fun_cases common a b with
    | case1 => grind
    | case2 => grind
    | case3 a b => cases a <;> cases b <;> grind

theorem prefix_foldl (more : List Dirent) (buf : List Byte) :
    q <+: more.foldl (fun buf dent => common buf dent.name) buf ↔ q <+: buf ∧ ∀ d ∈ more, q <+: d.name := by
  induction more generalizing buf with
  | nil => simp
  | cons d more ih => simp [ih, prefix_common, and_assoc]

/-- A first name with its mark that starts all other names is the one case in which the result is wrong. -/
theorem completes_iff {first : Dirent} {more : List Dirent} {buf : List Byte} (hstr : str <+: first.name)
    (hbuf : ∀ q, q <+: buf ↔ q <+: first.marked ∧ ∀ d ∈ more, q <+: d.name) :
    Completes str (first :: more) (if str.length < buf.length then some (buf.drop str.length) else none) ↔
      (more = [] ∨ ∃ d ∈ more, ¬first.marked <+: d.name) := by
  have hlen : str.length < first.marked.length := Nat.lt_of_le_of_lt hstr.length_le (by simp [Dirent.marked])
  have hself := (hbuf buf).mp (List.prefix_refl buf)
  constructor
  · intro h
    by_contra hall
    simp only [not_or, not_exists, not_and, not_not] at hall
    obtain ⟨p, hp, hout⟩ := h.several (by simpa using List.length_pos_iff.mpr hall.1)
    have hname : ∀ d ∈ more, first.name <+: d.name := fun d hd => (List.prefix_append _ _).trans (hall.2 d hd)
    have heq : buf = first.marked := hself.1.eq_of_length_le ((hbuf _).mpr ⟨List.prefix_refl _, hall.2⟩).length_le
    have hp' : p = first.name := ((hp p).mp (List.prefix_refl p) first List.mem_cons_self).eq_of_length_le
      ((hp _).mpr (List.forall_mem_cons.mpr ⟨List.prefix_refl _, hname⟩)).length_le
    rw [heq, hp', if_pos hlen] at hout
    split at hout
    · have hdiff := congrArg List.length (Option.some.inj hout)
      simp [Dirent.marked] at hdiff
      omega
    · cases hout
  · intro h
    refine ⟨nofun, ?_, fun hseveral => ⟨buf, fun q => ?_, rfl⟩⟩
    · rintro d ⟨⟩
      have heq : buf = first.marked := hself.1.eq_of_length_le ((hbuf _).mpr ⟨List.prefix_refl _, nofun⟩).length_le
      rw [heq, if_pos hlen]
    · rw [hbuf, List.forall_mem_cons]
      refine and_congr_left fun hq => List.prefix_concat_iff.trans (or_iff_right ?_)
      rintro rfl
      obtain rfl | ⟨d, hd, hnot⟩ := h
      · exact Nat.lt_irrefl 1 hseveral
      · exact hnot (hq d hd)

theorem completion_iff (str : List Byte) (order : List Dirent) :
    (∃ out, completion str order = some out ∧ Completes str (order.filter (·.fits str)) out) ↔
      ∀ first more, order.filter (·.fits str) = first :: more →
        first.marked.length < 256 ∧ (more = [] ∨ ∃ d ∈ more, ¬first.marked <+: d.name) := by
  rw [completion]
  have hfits : ∀ d ∈ order.filter (·.fits str), str <+: d.name := by simp +contextual [Dirent.fits]
  generalize order.filter (·.fits str) = found at *
  split
  · exact iff_of_true ⟨none, rfl, fun _ => rfl, nofun, by simp⟩ nofun
  · next first more =>
    have hright := completes_iff (hfits first List.mem_cons_self) fun q => prefix_foldl (q := q) more first.marked
    split
    · refine iff_of_false (by simp) fun h => ?_
      have := (h first more rfl).1
      omega
    · simp [hright]
      grind

/-- In each order of the directory the completion is right. -/
def RightInAllOrders (str : List Byte) (entries : List Dirent) : Prop :=
  ∀ order, order.Perm entries → ∃ out, autocomplete (fun _ => some order) str = some out ∧
    Completes (lastPart str) (entries.filter (·.fits (lastPart str))) out

/-- The completion is right in every order of the directory exactly if the names fit into the buffers and no entry
that fits, marked as it is printed, is the start of all the other ones. -/
theorem autocomplete_iff (str : List Byte) (entries : List Dirent) :
    RightInAllOrders str entries ↔ (dirPart str).length < 256 ∧
      ∀ d ∈ entries.filter (·.fits (lastPart str)), d.marked.length < 256 ∧
        ((entries.filter (·.fits (lastPart str))).erase d = [] ∨
          ∃ e ∈ (entries.filter (·.fits (lastPart str))).erase d, ¬d.marked <+: e.name) := by
  have hfits (order : List Dirent) (hdir : (dirPart str).length < 256) :
      autocomplete (fun _ => some order) str = completion (lastPart str) order := if_neg (Nat.not_le.mpr hdir)
  constructor
  · intro h
    have hdir : (dirPart str).length < 256 := by
      by_contra hlong
      obtain ⟨out, hout, -⟩ := h entries (.refl entries)
      rw [autocomplete, if_pos (Nat.le_of_not_lt hlong)] at hout
      cases hout
    refine ⟨hdir, fun d hd => ?_⟩
    -- the order in which the name comes first of those that fit
    have hperm := ((List.perm_cons_erase hd).symm.append_right _).trans (List.filter_append_perm _ entries)
    obtain ⟨out, hout, hcompletes⟩ := h _ hperm
    rw [hfits _ hdir] at hout
    refine (completion_iff _ _).mp ⟨out, hout, hcompletes.perm (hperm.symm.filter _)⟩ d _ ?_
    have hall : ∀ e ∈ d :: (entries.filter (·.fits (lastPart str))).erase d, e.fits (lastPart str) = true :=
      fun e he => (List.mem_filter.mp ((List.perm_cons_erase hd).mem_iff.mpr he)).2
    rw [List.filter_append, List.filter_eq_self.mpr hall, List.filter_filter]
    simp
  · rintro ⟨hdir, h⟩ order hperm
    have hfound := hperm.filter (·.fits (lastPart str))
    obtain ⟨out, hout, hcompletes⟩ := (completion_iff (lastPart str) order).mpr fun first more hfirst => by
      rw [hfirst] at hfound
      have hmore := (List.cons_perm_iff_perm_erase.mp hfound).2
      simpa only [hmore.mem_iff, ← List.length_eq_zero_iff,
        hmore.length_eq] using h first (hfound.mem_iff.mp List.mem_cons_self)
    exact ⟨out, (hfits order hdir).trans hout, hcompletes.perm hfound⟩

/-- `a` with the blank that marks a file is the start of `a b`. -/
theorem autocomplete_order : ¬RightInAllOrders [0x61] [⟨[0x61], false⟩, ⟨[0x61, 0x20, 0x62], false⟩] := by
  intro h
  obtain ⟨out, hout, -, -, h⟩ := h _ (.refl _)
  obtain ⟨p, hp, rfl⟩ := h (by decide)
  have hle : p.length ≤ (lastPart [0x61]).length := ((hp p).mp (List.prefix_refl p) _ List.mem_cons_self).length_le
  rw [if_neg (Nat.not_lt.mpr hle)] at hout
  exact absurd hout (by decide)

end Novino.Yash
