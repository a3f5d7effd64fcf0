import Mathlib.Data.List.Nodup
import Novino.Lib.Links
import Novino.Lib.Steps
import Novino.Main.Lists

/-! The kernel list represents a sequence, apart from the length, which counts modulo 2^32. -/

namespace Novino.Main

namespace Links

variable (mem : Links) (a v b : Nat)

@[simp, grind =] theorem setPrev_next : (setPrev mem a v b).next = (mem b).next := by
  unfold setPrev
  by_cases h : b = a
  · rw [h, Function.update_self]
  · rw [Function.update_of_ne h]

@[simp, grind =] theorem setPrev_prev : (setPrev mem a v b).prev = if b = a then v else (mem b).prev := by
  unfold setPrev
  by_cases h : b = a
  · rw [h, Function.update_self, if_pos rfl]
  · rw [Function.update_of_ne h, if_neg h]

@[simp, grind =] theorem setNext_prev : (setNext mem a v b).prev = (mem b).prev := by
  unfold setNext
  by_cases h : b = a
  · rw [h, Function.update_self]
  · rw [Function.update_of_ne h]

@[simp, grind =] theorem setNext_next : (setNext mem a v b).next = if b = a then v else (mem b).next := by
  unfold setNext
  by_cases h : b = a
  · rw [h, Function.update_self, if_pos rfl]
  · rw [Function.update_of_ne h, if_neg h]

variable {mem a b}

theorem setPrev_of_ne (h : b ≠ a) : setPrev mem a v b = mem b := Function.update_of_ne h ..

theorem setNext_of_ne (h : b ≠ a) : setNext mem a v b = mem b := Function.update_of_ne h ..

end Links

open Links

variable {mem : Links} {list : KList} {x y : Nat}

theorem listBypass_next (hp : (mem (x + list.offset)).prev ≠ x) :
    (listBypass mem list x (y + list.offset)).next =
      if (mem (x + list.offset)).prev ≠ 0 ∧ y = (mem (x + list.offset)).prev then (mem (x + list.offset)).next
      else (mem (y + list.offset)).next := by
  unfold listBypass
  by_cases h0 : (mem (x + list.offset)).prev = 0 <;> by_cases h1 : (mem (x + list.offset)).next = 0 <;>
    simp [h0, h1, Ne.symm hp]

theorem listBypass_prev (hp : (mem (x + list.offset)).prev ≠ x) :
    (listBypass mem list x (y + list.offset)).prev =
      if (mem (x + list.offset)).next ≠ 0 ∧ y = (mem (x + list.offset)).next then (mem (x + list.offset)).prev
      else (mem (y + list.offset)).prev := by
  unfold listBypass
  by_cases h0 : (mem (x + list.offset)).prev = 0 <;> by_cases h1 : (mem (x + list.offset)).next = 0 <;>
    simp [h0, h1, Ne.symm hp]

theorem listBypass_congr {list' : KList} (h : list.offset = list'.offset) (x : Nat) :
    listBypass mem list x = listBypass mem list' x := by
  simp only [listBypass, h]

theorem listPop_offset (mem : Links) (list : KList) : (listPop mem list).2.1.offset = list.offset := by
  by_cases h0 : list.head = 0 <;> simp [listPop, h0]

theorem listRemove_offset (mem : Links) (list : KList)
    (x : Nat) : (listRemove mem list x).2.1.offset = list.offset := by
  by_cases h : list.head = x ∨ list.tail = x ∨ (mem (x + list.offset)).prev ≠ 0 ∨ (mem (x + list.offset)).next ≠ 0
  · simp only [listRemove, if_pos h]
  · simp only [listRemove, if_neg h]

/-! ### The sequence a list represents -/

section
variable {mem mem' : Links} {list list' : KList} {xs l r : List Nat} {c x : Nat}

/-- The list holds the items `xs` in this order, and none twice. -/
structure Represents (mem : Links) (list : KList) (xs : List Nat) : Prop where
  linked : Linking (fun x => (mem (x + list.offset)).next) (fun x => (mem (x + list.offset)).prev) xs
  nodup : xs.Nodup
  zero : 0 ∉ xs
  head : list.head = xs.headD 0
  tail : list.tail = xs.getLastD 0
  length : list.length = xs.length % 2 ^ 32

namespace Represents

theorem init (mem : Links) (offset : Nat) : Represents mem (listInit offset) [] :=
  ⟨Linking.nil, List.nodup_nil, List.not_mem_nil, rfl, rfl, rfl⟩

theorem ne_zero (h : Represents mem list xs) (hc : c ∈ xs) : c ≠ 0 := fun h0 => h.zero (h0 ▸ hc)

theorem mid (h : Represents mem list (l ++ c :: r)) :
    (mem (c + list.offset)).next = r.headD 0 ∧ (mem (c + list.offset)).prev = l.getLastD 0 :=
  h.linked.mid (h.ne_zero (List.mem_append_right l List.mem_cons_self))

variable {p n : Nat}

theorem insert_between (h : Represents mem list (l ++ r)) (hc0 : c ≠ 0) (hc : c ∉ l ++ r)
    (hp : p = l.getLastD 0) (hn : n = r.headD 0)
    (hoff : list'.offset = list.offset) (hlen : list'.length = incr32 list.length)
    (hhead : list'.head = (l ++ c :: r).headD 0) (htail : list'.tail = (l ++ c :: r).getLastD 0)
    (hnext : ∀ x, (mem' (x + list.offset)).next =
      if p ≠ 0 ∧ x = p then c else if x = c then n else (mem (x + list.offset)).next)
    (hprev : ∀ x, (mem' (x + list.offset)).prev =
      if n ≠ 0 ∧ x = n then c else if x = c then p else (mem (x + list.offset)).prev) :
    Represents mem' list' (l ++ c :: r) := by
  subst hp hn
  have hne : ∀ {x}, x ∈ l ++ r → x ≠ c := fun hx heq => hc (heq ▸ hx)
  refine ⟨?_, ?_, ?_, hhead, htail, ?_⟩
  · rw [hoff]
    refine h.linked.splice h.zero (fun x hl hr => (List.nodup_append.mp h.nodup).2.2 x hl x hr rfl) ?_ ?_ ?_ ?_ ?_ ?_
    · rw [hnext, if_neg fun hx => hne (List.mem_append_left r (Linking.getLastD_mem hx.1)) hx.2.symm, if_pos rfl]
    · rw [hprev, if_neg fun hx => hne (List.mem_append_right l (Linking.headD_mem hx.1)) hx.2.symm, if_pos rfl]
    · intro h0
      rw [hnext, if_pos ⟨h0, rfl⟩]
    · intro h0
      rw [hprev, if_pos ⟨h0, rfl⟩]
    · intro x hx hl
      rw [hnext, if_neg fun hx => hl hx.2, if_neg (hne hx)]
    · intro x hx hr
      rw [hprev, if_neg fun hx => hr hx.2, if_neg (hne hx)]
  · exact List.nodup_middle.mpr (List.nodup_cons.mpr ⟨hc, h.nodup⟩)
  · simpa [Ne.symm hc0] using h.zero
  · rw [hlen, h.length, incr32, Nat.mod_add_mod, List.length_append, List.length_append, List.length_cons,
      Nat.add_assoc]

theorem remove_between (h : Represents mem list (l ++ c :: r)) (hp : p = l.getLastD 0)
    (hn : n = r.headD 0) (hoff : list'.offset = list.offset) (hlen : list'.length = decr32 list.length)
    (hhead : list'.head = (l ++ r).headD 0) (htail : list'.tail = (l ++ r).getLastD 0)
    (hnext : ∀ x, x ≠ c → (mem' (x + list.offset)).next =
      if p ≠ 0 ∧ x = p then n else (mem (x + list.offset)).next)
    (hprev : ∀ x, x ≠ c → (mem' (x + list.offset)).prev =
      if n ≠ 0 ∧ x = n then p else (mem (x + list.offset)).prev) :
    Represents mem' list' (l ++ r) := by
  subst hp hn
  obtain ⟨hc, hnd⟩ := List.nodup_cons.mp (List.nodup_middle.mp h.nodup)
  have hzero : 0 ∉ l ++ r := fun h0 => h.zero (by grind)
  have hne : ∀ {x}, x ∈ l ++ r → x ≠ c := fun hx heq => hc (heq ▸ hx)
  refine ⟨?_, hnd, hzero, hhead, htail, ?_⟩
  · rw [hoff]
    rw [List.mem_append, not_or] at hc
    refine h.linked.remove hc.1 hc.2 (fun x hl hr => (List.nodup_append.mp hnd).2.2 x hl x hr rfl) ?_ ?_ ?_ ?_
    · intro h0
      rw [hnext _ (hne (List.mem_append_left r (Linking.getLastD_mem h0))), if_pos ⟨h0, rfl⟩]
    · intro h0
      rw [hprev _ (hne (List.mem_append_right l (Linking.headD_mem h0))), if_pos ⟨h0, rfl⟩]
    · intro x hx hl
      rw [hnext x (hne (List.mem_append.mpr hx)), if_neg fun hx => hl hx.2]
    · intro x hx hr
      rw [hprev x (hne (List.mem_append.mpr hx)), if_neg fun hx => hr hx.2]
  · rw [hlen, h.length, decr32, Nat.mod_add_mod, List.length_append, List.length_append, List.length_cons]
    omega

section
variable (h : Represents mem list xs)
include h

theorem head_eq_zero : list.head = 0 ↔ xs = [] := by
  rw [h.head]
  cases xs with
  | nil => simp
  | cons y ys => simpa using h.ne_zero List.mem_cons_self

theorem tail_eq_zero : list.tail = 0 ↔ xs = [] := by
  rw [h.tail]
  cases xs with
  | nil => simp
  | cons y ys =>
    have hlast := h.ne_zero (List.getLast_mem (List.cons_ne_nil y ys))
    rw [List.getLast_eq_getLastD] at hlast
    exact ⟨fun h0 => absurd (List.getLastD_cons .. ▸ h0) hlast, fun h0 => absurd h0 (List.cons_ne_nil y ys)⟩

theorem head_mem (h0 : list.head ≠ 0) : list.head ∈ xs :=
  h.head ▸ Linking.headD_mem (h.head ▸ h0)

theorem tail_mem (h0 : list.tail ≠ 0) : list.tail ∈ xs :=
  h.tail ▸ Linking.getLastD_mem (h.tail ▸ h0)

end

section
variable (h : Represents mem list (l ++ x :: r))
include h

theorem mid_not_mem : x ∉ l ∧ x ∉ r := by
  have hx := (List.nodup_cons.mp (List.nodup_middle.mp h.nodup)).1
  rwa [List.mem_append, not_or] at hx

theorem tail_eq_mid : list.tail = x ↔ r = [] := by
  rw [h.tail]
  cases r with
  | nil => simp
  | cons y ys =>
    have hlast : (l ++ x :: y :: ys).getLastD 0 = (y :: ys).getLast (List.cons_ne_nil y ys) := by
      simp [List.getLast?_eq_some_getLast (List.cons_ne_nil y ys)]
    refine ⟨fun heq => ?_, fun h0 => absurd h0 (List.cons_ne_nil y ys)⟩
    exact absurd (heq ▸ hlast ▸ List.getLast_mem (List.cons_ne_nil y ys)) h.mid_not_mem.2

theorem head_eq_mid : list.head = x ↔ l = [] := by
  rw [h.head]
  cases l with
  | nil => simp
  | cons y ys =>
    refine ⟨fun heq => ?_, fun h0 => absurd h0 (List.cons_ne_nil y ys)⟩
    exact absurd ((show y = x from heq) ▸ List.mem_cons_self) h.mid_not_mem.1

end

theorem insert (h : Represents mem list xs) (hc0 : c ≠ 0) (hc : c ∉ xs) :
    Represents (listInsert mem list c).1 (listInsert mem list c).2 (c :: xs) := by
  refine insert_between (l := []) (p := 0) (n := list.head) h hc0 hc rfl h.head rfl rfl rfl ?_ (fun x => ?_) fun x => ?_
  · show (if list.tail = 0 then c else list.tail) = (c :: xs).getLastD 0
    rw [if_congr h.tail_eq_zero rfl h.tail]
    cases xs <;> rfl
  · by_cases h0 : list.head = 0 <;> simp [listInsert, h0]
  · by_cases h0 : list.head = 0 <;> simp [listInsert, h0]

theorem append (h : Represents mem list xs) (hc0 : c ≠ 0) (hc : c ∉ xs) :
    Represents (listAppend mem list c).1 (listAppend mem list c).2 (xs ++ [c]) := by
  rw [← List.append_nil xs] at h hc
  refine insert_between (p := list.tail)
    (n := 0) h hc0 hc (by simpa using h.tail) rfl rfl rfl ?_ ?_ (fun x => ?_) fun x => ?_
  · show (if list.head = 0 then c else list.head) = (xs ++ [c]).headD 0
    rw [if_congr h.head_eq_zero rfl h.head]
    cases xs <;> rfl
  · show c = (xs ++ [c]).getLastD 0
    simp
  · by_cases h0 : list.tail = 0 <;> simp [listAppend, h0]
  · by_cases h0 : list.tail = 0 <;> simp [listAppend, h0]

section
variable (h : Represents mem list (l ++ x :: r))
include h

theorem insert_after (hc0 : c ≠ 0) (hc : c ∉ l ++ x :: r) :
    Represents (listInsertAfter mem list x c).1 (listInsertAfter mem list x c).2 (l ++ x :: c :: r) := by
  have hx0 : x ≠ 0 := h.ne_zero (List.mem_append_right l List.mem_cons_self)
  have hcx : c ≠ x := fun heq => hc (heq ▸ List.mem_append_right l List.mem_cons_self)
  have hn := h.mid.1
  have htail := h.tail_eq_mid
  rw [List.append_cons] at h hc ⊢
  refine insert_between (p := x) h hc0 hc (by simp) hn rfl rfl ?_ ?_ (fun y => ?_) fun y => ?_
  · simpa [listInsertAfter] using h.head
  · show (if list.tail = x then c else list.tail) = (l ++ [x] ++ c :: r).getLastD 0
    rw [if_congr htail rfl h.tail]
    cases r <;> simp
  · by_cases h0 : (mem (x + list.offset)).next = 0 <;> simp [listInsertAfter, h0, hcx, hx0]
  · by_cases h0 : (mem (x + list.offset)).next = 0 <;> simp [listInsertAfter, h0, hcx]

theorem insert_before (hc0 : c ≠ 0) (hc : c ∉ l ++ x :: r) :
    Represents (listInsertBefore mem list x c).1 (listInsertBefore mem list x c).2 (l ++ c :: x :: r) := by
  have hx0 : x ≠ 0 := h.ne_zero (List.mem_append_right l List.mem_cons_self)
  have hcx : c ≠ x := fun heq => hc (heq ▸ List.mem_append_right l List.mem_cons_self)
  refine insert_between (n := x) h hc0 hc h.mid.2 rfl rfl rfl ?_ ?_ (fun y => ?_) fun y => ?_
  · show (if list.head = x then c else list.head) = (l ++ c :: x :: r).headD 0
    rw [if_congr h.head_eq_mid rfl h.head]
    cases l <;> simp
  · simpa [listInsertBefore] using h.tail
  · by_cases h0 : (mem (x + list.offset)).prev = 0 <;> simp [listInsertBefore, h0, hcx]
  · by_cases h0 : (mem (x + list.offset)).prev = 0 <;> simp [listInsertBefore, h0, hcx, hx0]

theorem mid_ne : (mem (x + list.offset)).next ≠ x ∧ (mem (x + list.offset)).prev ≠ x := by
  have hx0 : x ≠ 0 := h.ne_zero (List.mem_append_right l List.mem_cons_self)
  rw [h.mid.1, h.mid.2]
  constructor
  · intro heq
    exact h.mid_not_mem.2 (heq ▸ Linking.headD_mem (heq.symm ▸ hx0))
  · intro heq
    exact h.mid_not_mem.1 (heq ▸ Linking.getLastD_mem (heq.symm ▸ hx0))

theorem member :
    list.head = x ∨ list.tail = x ∨ (mem (x + list.offset)).prev ≠ 0 ∨ (mem (x + list.offset)).next ≠ 0 := by
  by_cases hl : l = []
  · exact .inl (h.head_eq_mid.mpr hl)
  · refine .inr (.inr (.inl ?_))
    rw [h.mid.2]
    obtain ⟨ys, y, rfl⟩ := List.eq_nil_or_concat l |>.resolve_left hl
    simpa using h.ne_zero (by simp : y ∈ ys.concat y ++ x :: r)

theorem remove :
    Represents (listRemove mem list x).1 (listRemove mem list x).2.1 (l ++ r) ∧ (listRemove mem list x).2.2 = true := by
  obtain ⟨hn, hp⟩ := h.mid_ne
  simp only [listRemove, if_pos h.member, and_true]
  refine remove_between h h.mid.2 h.mid.1 rfl rfl ?_ ?_ (fun y hy => ?_) fun y hy => ?_
  · show (if list.head = x then (mem (x + list.offset)).next else list.head) = (l ++ r).headD 0
    rw [if_congr h.head_eq_mid h.mid.1 h.head]
    cases l <;> simp
  · show (if list.tail = x then (mem (x + list.offset)).prev else list.tail) = (l ++ r).getLastD 0
    rw [if_congr h.tail_eq_mid h.mid.2 h.tail]
    cases r <;> simp
  · rw [Function.update_of_ne (by omega), listBypass_next hp]
  · rw [Function.update_of_ne (by omega), listBypass_prev hp]

end

section
variable (h : Represents mem list xs)
include h

theorem pop : Represents (listPop mem list).1 (listPop mem list).2.1 xs.tail ∧ (listPop mem list).2.2 = xs.headD 0 := by
  cases xs with
  | nil =>
    simp only [listPop, h.head_eq_zero.mpr rfl, ne_eq, not_true_eq_false, if_false]
    exact ⟨h, rfl⟩
  | cons x r =>
    have hx : list.head = x := h.head
    have hx0 : x ≠ 0 := h.ne_zero List.mem_cons_self
    obtain ⟨hn, hp⟩ := h.mid_ne (l := [])
    have hmid := h.mid (l := [])
    have hr : (mem (x + list.offset)).next ≠ 0 ↔ r ≠ [] := by
      rw [hmid.1]
      cases r with
      | nil => simp
      | cons y ys => simpa using h.ne_zero (List.mem_cons_of_mem x List.mem_cons_self)
    simp only [listPop, hx, ne_eq, hx0, not_false_eq_true, if_true]
    refine ⟨remove_between (l := []) (p := 0) h rfl hmid.1 rfl rfl hmid.1 ?_ (fun y hy => ?_) fun y hy => ?_, rfl⟩
    · show (if (mem (x + list.offset)).next ≠ 0 then list.tail else 0) = r.getLastD 0
      rw [if_congr hr h.tail rfl]
      cases r <;> simp
    · rw [Function.update_of_ne (by omega)]
      by_cases h0 : (mem (x + list.offset)).next = 0 <;> simp [h0]
    · rw [Function.update_of_ne (by omega)]
      by_cases h0 : (mem (x + list.offset)).next = 0 <;> simp [h0]

theorem congr (hmem : ∀ y ∈ xs, mem' (y + list.offset) = mem (y + list.offset)) : Represents mem' list xs :=
  { h with
    linked := h.linked.congr (fun y hy => congrArg ListLink.next (hmem y hy))
      (fun y hy => congrArg ListLink.prev (hmem y hy)) }

theorem append_other {y : Nat} (hy : y ∉ xs) (hc : y ≠ c) :
    (listAppend mem list c).1 (y + list.offset) = mem (y + list.offset) := by
  have hlink : y + list.offset ≠ c + list.offset := by omega
  have htail : list.tail ≠ 0 → y ≠ list.tail := fun h0 heq => hy (heq ▸ h.tail_mem h0)
  by_cases h0 : list.tail = 0
  · simp [listAppend, h0, setNext_of_ne, setPrev_of_ne, hc]
  · simp [listAppend, h0, setNext_of_ne, setPrev_of_ne, hc, htail h0]

end

section
variable (h : Represents mem list (l ++ x :: r)) {y : Nat}
include h

theorem neighbours : ((mem (x + list.offset)).next ≠ 0 → (mem (x + list.offset)).next ∈ l ++ x :: r) ∧
      ((mem (x + list.offset)).prev ≠ 0 → (mem (x + list.offset)).prev ∈ l ++ x :: r) := by
  rw [h.mid.1, h.mid.2]
  exact ⟨fun h0 => List.mem_append_right l (List.mem_cons_of_mem x (Linking.headD_mem h0)),
    fun h0 => List.mem_append_left _ (Linking.getLastD_mem h0)⟩

theorem bypass_other (hy : y ∉ l ++ x :: r) :
    listBypass mem list x (y + list.offset) = mem (y + list.offset) := by
  have hp := h.mid_ne.2
  refine ListLink.ext ?_ ?_
  · rw [listBypass_prev hp, if_neg]
    rintro ⟨h0, rfl⟩
    exact hy (h.neighbours.1 h0)
  · rw [listBypass_next hp, if_neg]
    rintro ⟨h0, rfl⟩
    exact hy (h.neighbours.2 h0)

theorem remove_other (hy : y ∉ l ++ x :: r) :
    (listRemove mem list x).1 (y + list.offset) = mem (y + list.offset) := by
  have hne : y ≠ x := fun heq => hy (heq ▸ List.mem_append_right l List.mem_cons_self)
  simp only [listRemove, if_pos h.member]
  rw [Function.update_of_ne (by omega), h.bypass_other hy]

theorem remove_link : (listRemove mem list x).1 (x + list.offset) = ⟨0, 0⟩ := by
  simp [listRemove, h.member]

end

theorem pop_other (h : Represents mem list xs) {y : Nat} (hy : y ∉ xs) :
    (listPop mem list).1 (y + list.offset) = mem (y + list.offset) := by
  cases xs with
  | nil => simp [listPop, h.head_eq_zero.mpr rfl]
  | cons x r =>
    have hx : list.head = x := h.head
    have hx0 : x ≠ 0 := h.ne_zero List.mem_cons_self
    have hne : y ≠ x := fun heq => hy (heq ▸ List.mem_cons_self)
    have hnext := (h.neighbours (l := [])).1
    simp only [listPop, hx, ne_eq, hx0, not_false_eq_true, if_true]
    rw [Function.update_of_ne (by omega)]
    split_ifs with h0
    · rfl
    · refine setPrev_of_ne _ fun heq => hy ?_
      have hyx : y = (mem (x + list.offset)).next := by omega
      exact hyx ▸ hnext h0

theorem pop_link (mem : Links) (h0 : list.head ≠ 0) : (listPop mem list).1 (list.head + list.offset) = ⟨0, 0⟩ := by
  simp [listPop, h0]

section
variable (h : Represents mem list (l ++ r))
include h

theorem iterate : listIterate mem list (l.getLastD 0) = r.headD 0 := by
  unfold listIterate
  split_ifs with h0
  · cases l with
    | nil => exact h.head
    | cons y l =>
      rw [List.getLastD_cons] at h0
      exact absurd (h0 ▸ List.mem_append_left r List.getLastD_mem_cons) h.zero
  · exact h.linked.part.2.1.1 h0

theorem iterate_reverse : listIterateReverse mem list (r.headD 0) = l.getLastD 0 := by
  unfold listIterateReverse
  split_ifs with h0
  · cases r with
    | nil => simpa using h.tail
    | cons y r => exact absurd (h0 ▸ List.mem_append_right l List.mem_cons_self) h.zero
  · exact h.linked.part.2.1.2 h0

theorem itemsAfter (n : Nat) : itemsAfter mem list n (l.getLastD 0) = r.take n := by
  induction n generalizing l r with
  | zero => rfl
  | succ n ih =>
    simp only [Main.itemsAfter, h.iterate]
    cases r with
    | nil => rfl
    | cons y r =>
      have hy : y ≠ 0 := h.ne_zero (List.mem_append_right l List.mem_cons_self)
      rw [List.append_cons] at h
      have hrest := ih h
      rw [List.getLastD_concat] at hrest
      simp only [List.headD_cons, hy, if_false, hrest, List.take_succ_cons]

theorem itemsBefore (n : Nat) : itemsBefore mem list n (r.headD 0) = l.reverse.take n := by
  induction n generalizing l r with
  | zero => rfl
  | succ n ih =>
    simp only [Main.itemsBefore, h.iterate_reverse]
    rcases List.eq_nil_or_concat l with rfl | ⟨l, y, rfl⟩
    · rfl
    · have hy : y ≠ 0 := h.ne_zero (by simp)
      rw [List.concat_eq_append, List.append_assoc] at h
      have hrest := ih h
      simp only [List.concat_eq_append, List.getLastD_concat, hy, if_false, List.reverse_append]
      simpa using hrest

end

theorem unique {ys : List Nat} (h : Represents mem list xs) (h' : Represents mem list' ys)
    (hoff : list'.offset = list.offset) (hhead : list'.head = list.head) : xs = ys := by
  have hiter : listIterate mem list' = listIterate mem list := by
    funext item
    simp only [listIterate, hoff, hhead]
  have hsame : ∀ n item, Main.itemsAfter mem list' n item = Main.itemsAfter mem list n item := by
    intro n
    induction n with
    | zero => exact fun _ => rfl
    | succ n ih =>
      intro item
      simp only [Main.itemsAfter, hiter, ih]
  have htake : ∀ n, xs.take n = ys.take n := fun n =>
    (h.itemsAfter (l := []) n).symm.trans ((hsame n 0).symm.trans (h'.itemsAfter (l := []) n))
  have hlong := htake (max xs.length ys.length)
  rwa [List.take_of_length_le (Nat.le_max_left ..), List.take_of_length_le (Nat.le_max_right ..)] at hlong

end Represents
end

namespace ListOp

def behind (head item : Nat) : List Nat → List Nat
  | [] => []
  | x :: xs => if x = head then x :: item :: xs else x :: behind head item xs

def ahead (head item : Nat) : List Nat → List Nat
  | [] => []
  | x :: xs => if x = head then item :: x :: xs else x :: ahead head item xs

def apply (xs : List Nat) : ListOp → List Nat
  | .insert item => item :: xs
  | .append item => xs ++ [item]
  | .insertAfter head item => behind head item xs
  | .insertBefore head item => ahead head item xs
  | .remove item => xs.erase item
  | .pop => xs.tail

/-- An inserted item is in no list, and an item that is named as the place or removed is in the list. -/
def Valid (xs : List Nat) : ListOp → Prop
  | .insert item | .append item => item ≠ 0 ∧ item ∉ xs
  | .insertAfter head item | .insertBefore head item => item ≠ 0 ∧ item ∉ xs ∧ head ∈ xs
  | .remove item => item ∈ xs
  | .pop => True

variable {head item : Nat} {l r : List Nat}

theorem behind_eq (hl : head ∉ l) :
    behind head item (l ++ head :: r) = l ++ head :: item :: r := by
  induction l with
  | nil => simp [behind]
  | cons y l ih =>
    rw [List.mem_cons, not_or] at hl
    simp [behind, Ne.symm hl.1, ih hl.2]

theorem ahead_eq (hl : head ∉ l) :
    ahead head item (l ++ head :: r) = l ++ item :: head :: r := by
  induction l with
  | nil => simp [ahead]
  | cons y l ih =>
    rw [List.mem_cons, not_or] at hl
    simp [ahead, Ne.symm hl.1, ih hl.2]

end ListOp

namespace ListState

def track (t : ListState × List Nat) (op : ListOp) : ListState × List Nat := (t.1.step op, op.apply t.2)

structure Shows (s : ListState) (xs : List Nat) : Prop where
  forward : ∀ n, itemsAfter s.mem s.list n 0 = xs.take n
  backward : ∀ n, itemsBefore s.mem s.list n 0 = xs.reverse.take n
  length : s.list.length = xs.length
  head : s.list.head = xs.headD 0
  tail : s.list.tail = xs.getLastD 0

theorem shows_iff {s : ListState} {xs : List Nat} (h : Represents s.mem s.list xs) :
    s.Shows xs ↔ xs.length < 2 ^ 32 := by
  constructor
  · intro hs
    rw [← hs.length, h.length]
    exact Nat.mod_lt _ (by decide)
  · intro hlt
    have hback : Represents s.mem s.list (xs ++ []) := (List.append_nil xs).symm ▸ h
    exact ⟨h.itemsAfter (l := []), hback.itemsBefore, h.length.trans (Nat.mod_eq_of_lt hlt), h.head, h.tail⟩

theorem represents_step {t : ListState × List Nat} {op : ListOp} (h : Represents t.1.mem t.1.list t.2)
    (hop : op.Valid t.2) : Represents (track t op).1.mem (track t op).1.list (track t op).2 := by
  obtain ⟨s, xs⟩ := t
  cases op with
  | insert item => exact h.insert hop.1 hop.2
  | append item => exact h.append hop.1 hop.2
  | insertAfter head item =>
    obtain ⟨hc0, hc, hhead⟩ := hop
    obtain ⟨l, r, rfl, hl⟩ := List.eq_append_cons_of_mem hhead
    show Represents _ _ (ListOp.behind head item (l ++ head :: r))
    rw [ListOp.behind_eq hl]
    exact h.insert_after hc0 hc
  | insertBefore head item =>
    obtain ⟨hc0, hc, hhead⟩ := hop
    obtain ⟨l, r, rfl, hl⟩ := List.eq_append_cons_of_mem hhead
    show Represents _ _ (ListOp.ahead head item (l ++ head :: r))
    rw [ListOp.ahead_eq hl]
    exact h.insert_before hc0 hc
  | remove item =>
    obtain ⟨l, r, rfl, hl⟩ := List.eq_append_cons_of_mem hop
    show Represents _ _ ((l ++ item :: r).erase item)
    rw [List.erase_append_right _ hl, List.erase_cons_head]
    exact h.remove.1
  | pop => exact h.pop.1

def fresh (mem : Links) (offset : Nat) : ListState × List Nat := (⟨mem, listInit offset⟩, [])

/-- The list shows its sequence after every call of a run exactly if the sequence never gets 2^32 items. -/
theorem kernel_list_iff (mem : Links) (offset : Nat) (ops : List ListOp)
    (hops : Steps.Along track (fun t op => op.Valid t.2) (fresh mem offset) ops) :
    Steps.Along track (fun t op => (track t op).1.Shows (track t op).2) (fresh mem offset) ops ↔
      Steps.Along track (fun t op => (op.apply t.2).length < 2 ^ 32) (fresh mem offset) ops :=
  Steps.Along.congr (I := fun t => Represents t.1.mem t.1.list t.2) (fun _ _ hI hP _ => represents_step hI hP)
    (fun _ _ h hop => shows_iff (represents_step h hop)) (Represents.init mem offset) hops

theorem kernel_list_two_items :
    let ops := [ListOp.append 32, .insertBefore 32 64, .remove 32]
    Steps.Along track (fun t op => (track t op).1.Shows (track t op).2) (fresh (fun _ => ⟨0, 0⟩) 8) ops :=
  (kernel_list_iff _ 8 _ (by simp [Steps.Along, ListOp.Valid, track, fresh, ListOp.apply, ListOp.ahead])).mpr
    (by simp [Steps.Along, track, fresh, ListOp.apply, ListOp.ahead])

def row (n : Nat) : List Nat := (List.range n).map fun i => 16 * (i + 1)

theorem append_row (mem : Links) (offset n : Nat) :
    Steps.Along track (fun t op => op.Valid t.2) (fresh mem offset) ((row n).map .append) ∧
      (((row n).map .append).foldl track (fresh mem offset)).2 = row n := by
  induction n with
  | zero => exact ⟨trivial, rfl⟩
  | succ n ih =>
    have hrow : row (n + 1) = row n ++ [16 * (n + 1)] := by
      simp [row, List.range_succ]
    have hnew : 16 * (n + 1) ∉ row n := by
      intro hm
      obtain ⟨i, hi, heq⟩ := List.mem_map.mp hm
      rw [List.mem_range] at hi
      omega
    rw [hrow, List.map_append, List.map_singleton, Steps.Along.concat, List.foldl_concat]
    refine ⟨⟨ih.1, ?_⟩, ?_⟩
    · rw [ih.2]
      exact ⟨by omega, hnew⟩
    · show _ ++ [16 * (n + 1)] = _
      rw [ih.2]

theorem row_wraps {n : Nat} (hn : 2 ^ 32 ≤ n) :
    Steps.Along track (fun t op => op.Valid t.2) (fresh (fun _ => ⟨0, 0⟩) 0) ((row n).map .append) ∧
      ¬(((row n).map .append).foldl track (fresh (fun _ => ⟨0, 0⟩) 0)).1.Shows
        (((row n).map .append).foldl track (fresh (fun _ => ⟨0, 0⟩) 0)).2 := by
  obtain ⟨hvalid, hrow⟩ := append_row (fun _ => ⟨0, 0⟩) 0 n
  have hrep := hvalid.invariant (I := fun t => Represents t.1.mem t.1.list t.2) (fun _ _ => represents_step)
    (Represents.init _ 0)
  refine ⟨hvalid, fun hs => ?_⟩
  have hlt := (shows_iff hrep).mp hs
  rw [hrow, row, List.length_map, List.length_range] at hlt
  exact Nat.not_lt.mpr hn hlt

/-- With the 2^32-th item the length of the list is 0 again. -/
theorem list_length_wraps :
    ∃ n, n = 2 ^ 32 ∧
      Steps.Along track (fun t op => op.Valid t.2) (fresh (fun _ => ⟨0, 0⟩) 0) ((row n).map .append) ∧
      ¬(((row n).map .append).foldl track (fresh (fun _ => ⟨0, 0⟩) 0)).1.Shows
        (((row n).map .append).foldl track (fresh (fun _ => ⟨0, 0⟩) 0)).2 :=
  ⟨_, rfl, row_wraps (Nat.le_refl _)⟩

end ListState
end Novino.Main
