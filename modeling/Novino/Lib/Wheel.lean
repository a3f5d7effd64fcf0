import Mathlib.Algebra.BigOperators.Fin
import Mathlib.Algebra.Group.Fin.Basic
import Mathlib.Algebra.Order.BigOperators.Group.Finset

/-! A wheel of queues: members are put some places ahead of the present queue and taken from it; the wheel turns when it
    is empty. -/

namespace Novino

/-- Queues in a circle, of which one is served. -/
structure Wheel (α : Type*) (n : ℕ) where
  queues : Fin n → List α
  index : Fin n

namespace Wheel

variable {α : Type*} {n : ℕ} {w w' : Wheel α n} {x y z : α} {q k : Fin n} {queue : List α} {i fuel m b : ℕ}

def dist (w : Wheel α n) (q : Fin n) : ℕ := (q - w.index).val

def set (w : Wheel α n) (q : Fin n) (queue : List α) : Wheel α n :=
  { w with queues := Function.update w.queues q queue }

def push (w : Wheel α n) (k : Fin n) (x : α) : Wheel α n := w.set (w.index + k) (w.queues (w.index + k) ++ [x])

theorem dist_lt : w.dist q < n := (q - w.index).isLt

theorem getElem?_push : ((w.push k z).queues q)[i]? = some x ↔
    (w.queues q)[i]? = some x ∨ q = w.index + k ∧ i = (w.queues q).length ∧ x = z := by
  unfold push set
  by_cases hq : q = w.index + k
  · subst hq
    simp only [Function.update_self, true_and]
    constructor
    · intro h
      rcases Nat.lt_or_ge i (w.queues (w.index + k)).length with hlt | hge
      · rw [List.getElem?_append_left hlt] at h
        exact .inl h
      · rw [List.getElem?_append_right hge, List.getElem?_singleton] at h
        split at h
        · exact .inr ⟨by omega, (Option.some_inj.mp h).symm⟩
        · cases h
    · rintro (h | ⟨rfl, rfl⟩)
      · rw [List.getElem?_append_left (List.getElem?_eq_some_iff.mp h).1, h]
      · exact List.getElem?_concat_length
  · simp only [Function.update_of_ne hq, hq, false_and, or_false]

theorem getElem?_set (h : w.queues w.index = z :: queue) :
    ((w.set w.index queue).queues q)[i]? = some x ↔ (w.queues q)[if q = w.index then i + 1 else i]? = some x := by
  unfold set
  by_cases hq : q = w.index
  · subst hq
    simp only [Function.update_self, if_true, h, List.getElem?_cons_succ]
  · simp only [Function.update_of_ne hq, hq, if_false]

def shift (w : Wheel α n) (q : Fin n) (i : ℕ) : ℕ := if q = w.index then i - 1 else i

theorem getElem?_shift (hq : w.queues w.index = z :: queue) (hzx : z ≠ x) (hx : (w.queues q)[i]? = some x) :
    ((w.set w.index queue).queues q)[w.shift q i]? = some x ∧ (q = w.index → 0 < i) := by
  have hpos : q = w.index → 0 < i := by
    rintro rfl
    refine Nat.pos_of_ne_zero fun h0 => hzx ?_
    rw [h0, hq] at hx
    exact Option.some_inj.mp hx
  refine ⟨(getElem?_set hq).mpr ?_, hpos⟩
  unfold shift
  split
  · rwa [Nat.sub_add_cancel (hpos ‹_›)]
  · exact hx

def Single (w : Wheel α n) (x : α) : Prop :=
  ∀ (p : Fin n) (j : ℕ) (q : Fin n) (i : ℕ), (w.queues p)[j]? = some x → (w.queues q)[i]? = some x → p = q ∧ j = i

theorem Single.push (h : w.Single x) (hz : ∀ q, z ∉ w.queues q) : (w.push k z).Single x := by
  intro p j q i hj hi
  rcases getElem?_push.mp hj with hold | ⟨rfl, rfl, rfl⟩
  · rcases getElem?_push.mp hi with hold' | ⟨-, -, rfl⟩
    · exact h p j q i hold hold'
    · exact absurd (List.mem_of_getElem? hold) (hz p)
  · rcases getElem?_push.mp hi with hold' | ⟨rfl, rfl, -⟩
    · exact absurd (List.mem_of_getElem? hold') (hz q)
    · exact ⟨rfl, rfl⟩

theorem Single.pop (h : w.Single x) (hq : w.queues w.index = z :: queue) : (w.set w.index queue).Single x := by
  intro p j q i hj hi
  obtain ⟨rfl, heq⟩ := h _ _ _ _ ((getElem?_set hq).mp hj) ((getElem?_set hq).mp hi)
  split at heq
  · exact ⟨rfl, Nat.succ.inj heq⟩
  · exact ⟨rfl, heq⟩

def Only (w : Wheel α n) (x : α) (q : Fin n) (i : ℕ) : Prop :=
  (w.queues q)[i]? = some x ∧ ∀ p j, (w.queues p)[j]? = some x → p = q ∧ j = i

theorem Only.shift (h : w.Only x q i) (hq : w.queues w.index = z :: queue) (hzx : z ≠ x) :
    (w.set w.index queue).Only x q (w.shift q i) := by
  refine ⟨(getElem?_shift hq hzx h.1).1, fun p j hj => ?_⟩
  obtain ⟨rfl, rfl⟩ := h.2 p _ ((getElem?_set hq).mp hj)
  unfold Wheel.shift
  refine ⟨rfl, ?_⟩
  split <;> rfl

theorem sum_set (f : List α → ℕ) :
    (∑ p, f ((w.set q queue).queues p)) + f (w.queues q) = (∑ p, f (w.queues p)) + f queue := by
  have hset : ∑ p ∈ Finset.univ.erase q, f ((w.set q queue).queues p) = ∑ p ∈ Finset.univ.erase q, f (w.queues p) :=
    Finset.sum_congr rfl fun p hp => congrArg f (Function.update_of_ne (Finset.ne_of_mem_erase hp) ..)
  have hself : (w.set q queue).queues q = queue := Function.update_self ..
  rw [← Finset.add_sum_erase _ _ (Finset.mem_univ q), ← Finset.add_sum_erase _ (fun p => f (w.queues p))
    (Finset.mem_univ q), hset, hself]
  omega

theorem sum_push (f : List α → ℕ) :
    (∑ p, f ((w.push k z).queues p)) + f (w.queues (w.index + k)) =
      (∑ p, f (w.queues p)) + f (w.queues (w.index + k) ++ [z]) := sum_set f

theorem exists_of_sum_length (h : ∑ p, (w.queues p).length ≠ 0) : ∃ q, w.queues q ≠ [] := by
  obtain ⟨q, -, hq⟩ := Finset.exists_ne_zero_of_sum_ne_zero h
  exact ⟨q, fun hnil => hq (by rw [hnil]; rfl)⟩

/-- `y` waits, and `x` comes up at most `b` times before it, where members are put at least `m` places ahead. -/
def Passes (m : ℕ) (w : Wheel α n) (x y : α) (b : ℕ) : Prop :=
  ∃ t j, (w.queues t)[j]? = some y ∧
    ((∀ q, x ∉ w.queues q) ∧ (w.dist t - 1) / m ≤ b ∨
      ∃ u i, w.Only x u i ∧ (w.dist u < w.dist t ∨ u = t ∧ i < j → 1 + (w.dist t - w.dist u - 1) / m ≤ b))

theorem Passes.mono {c : ℕ} (h : Passes m w x y b) (hbc : b ≤ c) : Passes m w x y c := by
  obtain ⟨t, j, hy, hx⟩ := h
  refine ⟨t, j, hy, ?_⟩
  rcases hx with ⟨hx, hb⟩ | ⟨u, i, honly, hb⟩
  · exact .inl ⟨hx, hb.trans hbc⟩
  · exact .inr ⟨u, i, honly, fun hbefore => (hb hbefore).trans hbc⟩

variable [NeZero n]

def turn (w : Wheel α n) : Wheel α n := { w with index := w.index + 1 }

/-- The wheel turns up to a queue that is not empty; `fuel` bounds the number of queues that are looked at. -/
def seek : ℕ → Wheel α n → Option (Wheel α n)
  | 0, _ => none
  | fuel + 1, w => if w.queues w.index = [] then seek fuel w.turn else some w

theorem dist_index : w.dist w.index = 0 := by
  unfold dist
  rw [sub_self]
  rfl

theorem dist_add : w.dist (w.index + k) = k.val := by
  unfold dist
  rw [add_sub_cancel_left]

theorem dist_turn (h : q ≠ w.index) : w.turn.dist q + 1 = w.dist q := by
  have hne : q - w.index ≠ 0 := sub_ne_zero.mpr h
  have hpos : 0 < (q - w.index).val := Nat.pos_of_ne_zero fun h0 => hne (Fin.ext h0)
  unfold dist turn
  rw [show q - (w.index + 1) = q - w.index - 1 by rw [sub_sub], Fin.val_sub_one_of_ne_zero hne]
  omega

theorem seek_index (h : w.seek fuel = some w') : w'.queues w'.index ≠ [] := by
  induction fuel generalizing w with
  | zero => cases h
  | succ fuel ih =>
    rw [seek] at h
    split at h
    · exact ih h
    · cases h
      assumption

theorem seek_induction {P : Wheel α n → Prop} (hturn : ∀ w, w.queues w.index = [] → P w → P w.turn)
    (h : w.seek fuel = some w') (hw : P w) : P w' := by
  induction fuel generalizing w with
  | zero => cases h
  | succ fuel ih =>
    rw [seek] at h
    split at h
    · exact ih h (hturn w ‹_› hw)
    · cases h
      exact hw

theorem seek_queues (h : w.seek fuel = some w') : w'.queues = w.queues :=
  seek_induction (P := fun v => v.queues = w.queues) (fun _ _ hv => hv) h rfl

theorem exists_seek (h : w.queues q ≠ []) (hd : w.dist q < fuel) : ∃ w', w.seek fuel = some w' := by
  induction fuel generalizing w with
  | zero => cases hd
  | succ fuel ih =>
    rw [seek]
    split
    · rename_i hnil
      have hq : q ≠ w.index := fun hq => h (hq ▸ hnil)
      have hturn := dist_turn hq
      exact ih h (by omega)
    · exact ⟨w, rfl⟩

theorem exists_seek_once (h : w.queues q ≠ []) : ∃ w', w.seek n = some w' := exists_seek h dist_lt

theorem Single.passes (hs : w.Single x) (hne : x ≠ y) : Passes m (w.push k y) x y (1 + (k.val - 1) / m) := by
  have hx : (∀ q, x ∉ w.queues q) ∨ ∃ u i, w.Only x u i := by
    by_cases h : ∃ u, x ∈ w.queues u
    · obtain ⟨u, hu⟩ := h
      obtain ⟨i, hi⟩ := List.mem_iff_getElem?.mp hu
      exact .inr ⟨u, i, hi, fun p j hj => hs p j u i hj hi⟩
    · exact .inl (not_exists.mp h)
  have hdist : (w.push k y).dist (w.index + k) = k.val := dist_add
  refine ⟨w.index + k, (w.queues (w.index + k)).length, getElem?_push.mpr (.inr ⟨rfl, rfl, rfl⟩), ?_⟩
  rcases hx with hx | ⟨u, i, hat, honly⟩
  · refine .inl ⟨fun q hmem => ?_, by rw [hdist]; omega⟩
    obtain ⟨i, hi⟩ := List.mem_iff_getElem?.mp hmem
    rcases getElem?_push.mp hi with h | ⟨-, -, h⟩
    · exact hx q (List.mem_of_getElem? h)
    · exact hne h
  · refine .inr ⟨u, i, ⟨getElem?_push.mpr (.inl hat), fun p j hj => ?_⟩, fun _ => ?_⟩
    · rcases getElem?_push.mp hj with h | ⟨-, -, h⟩
      · exact honly p j h
      · exact absurd h hne
    · rw [hdist]
      exact Nat.add_le_add_left (Nat.div_le_div_right (by omega)) 1

theorem Passes.push (h : Passes m w x y b) (hz : ∀ q, z ∉ w.queues q) (hm : 0 < m) (hk : m ≤ k.val) :
    Passes m (w.push k z) x y b := by
  obtain ⟨t, j, hy, hx⟩ := h
  have hyz : y ≠ z := fun h => hz t (h ▸ List.mem_of_getElem? hy)
  refine ⟨t, j, getElem?_push.mpr (.inl hy), ?_⟩
  change _ ∧ (w.dist t - 1) / m ≤ b ∨ ∃ u i, _ ∧ (w.dist u < w.dist t ∨ u = t ∧ i < j →
    1 + (w.dist t - w.dist u - 1) / m ≤ b)
  rcases hx with ⟨hx, hb⟩ | ⟨u, i, ⟨hat, honly⟩, hb⟩
  · by_cases hxz : x = z
    · subst hxz
      refine .inr ⟨w.index + k, (w.queues (w.index + k)).length,
        ⟨getElem?_push.mpr (.inr ⟨rfl, rfl, rfl⟩), fun p i hi => ?_⟩, fun hbefore => ?_⟩
      · rcases getElem?_push.mp hi with h | ⟨rfl, rfl, -⟩
        · exact absurd (List.mem_of_getElem? h) (hx p)
        · exact ⟨rfl, rfl⟩
      · rcases hbefore with hlt | ⟨rfl, hlt⟩
        · rw [dist_add] at hlt ⊢
          calc 1 + (w.dist t - k.val - 1) / m
              = (w.dist t - k.val - 1 + m) / m := by rw [Nat.add_div_right _ hm, Nat.add_comm]
            _ ≤ (w.dist t - 1) / m := Nat.div_le_div_right (by omega)
            _ ≤ b := hb
        · exact absurd (List.getElem?_eq_some_iff.mp hy).1 (by omega)
    · refine .inl ⟨fun q hmem => ?_, hb⟩
      obtain ⟨i, hi⟩ := List.mem_iff_getElem?.mp hmem
      rcases getElem?_push.mp hi with h | ⟨-, -, h⟩
      · exact hx q (List.mem_of_getElem? h)
      · exact hxz h
  · have hxz : x ≠ z := fun h => hz u (h ▸ List.mem_of_getElem? hat)
    refine .inr ⟨u, i, ⟨getElem?_push.mpr (.inl hat), fun p j hj => ?_⟩, hb⟩
    rcases getElem?_push.mp hj with h | ⟨-, -, h⟩
    · exact honly p j h
    · exact absurd h hxz

theorem Passes.turn (h : Passes m w x y b) (hnil : w.queues w.index = []) : Passes m w.turn x y b := by
  have hne : ∀ {v : α} {q : Fin n} {i : ℕ}, (w.queues q)[i]? = some v → q ≠ w.index := by
    rintro v q i hv rfl
    rw [hnil] at hv
    cases hv
  obtain ⟨t, j, hy, hx⟩ := h
  have ht := dist_turn (hne hy)
  refine ⟨t, j, hy, ?_⟩
  rcases hx with ⟨hx, hb⟩ | ⟨u, i, honly, hb⟩
  · exact .inl ⟨hx, (Nat.div_le_div_right (by omega)).trans hb⟩
  · have hu := dist_turn (hne honly.1)
    refine .inr ⟨u, i, honly, fun hbefore => ?_⟩
    have := hb (hbefore.imp_left (by omega))
    rwa [show w.turn.dist t - w.turn.dist u - 1 = w.dist t - w.dist u - 1 by omega]

theorem Passes.seek (h : Passes m w x y b) (hs : w.seek fuel = some w') : Passes m w' x y b :=
  seek_induction (P := fun v => Passes m v x y b) (fun _ hnil hv => hv.turn hnil) hs h

theorem Passes.pop [DecidableEq α] (h : Passes m w x y b) (hq : w.queues w.index = z :: queue) (hzy : z ≠ y) :
    ∃ c, Passes m (w.set w.index queue) x y c ∧ c + (if z = x then 1 else 0) ≤ b := by
  obtain ⟨t, j, hy, hx⟩ := h
  obtain ⟨hy', hj⟩ := getElem?_shift hq hzy hy
  have hz : (w.queues w.index)[0]? = some z := by rw [hq]; rfl
  rcases hx with ⟨hx, hb⟩ | ⟨u, i, honly, hb⟩
  · have hzx : z ≠ x := fun h => hx w.index (h ▸ List.mem_of_getElem? hz)
    refine ⟨b, ⟨t, _, hy', .inl ⟨fun q hmem => ?_, hb⟩⟩, by rw [if_neg hzx]; exact Nat.le_refl b⟩
    obtain ⟨i, hi⟩ := List.mem_iff_getElem?.mp hmem
    exact hx q (List.mem_of_getElem? ((getElem?_set hq).mp hi))
  · by_cases hzx : z = x
    · subst hzx
      obtain ⟨rfl, rfl⟩ := honly.2 _ _ hz
      -- the present queue is before all others, and `x` is the first in it
      have hbefore : w.dist w.index < w.dist t ∨ w.index = t ∧ 0 < j := by
        by_cases ht : t = w.index
        · exact .inr ⟨ht.symm, hj ht⟩
        · have hturn := dist_turn ht
          rw [dist_index]
          exact .inl (by omega)
      have hle := hb hbefore
      rw [dist_index, Nat.sub_zero] at hle
      refine ⟨(w.dist t - 1) / m, ⟨t, _, hy', .inl ⟨fun q hmem => ?_, Nat.le_refl _⟩⟩, by rw [if_pos rfl]; omega⟩
      obtain ⟨i, hi⟩ := List.mem_iff_getElem?.mp hmem
      obtain ⟨rfl, h0⟩ := honly.2 _ _ ((getElem?_set hq).mp hi)
      rw [if_pos rfl] at h0
      exact absurd h0 (Nat.succ_ne_zero i)
    · refine ⟨b, ⟨t, _, hy', .inr ⟨u, _, honly.shift hq hzx, fun hbefore => hb ?_⟩⟩,
        by rw [if_neg hzx]; exact Nat.le_refl b⟩
      rcases hbefore with hlt | ⟨rfl, hlt⟩
      · exact .inl hlt
      · refine .inr ⟨rfl, ?_⟩
        unfold Wheel.shift at hlt
        split at hlt <;> omega

end Wheel
end Novino
