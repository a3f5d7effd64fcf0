import Mathlib.Data.Finset.Max
import Mathlib.Order.Interval.Finset.Defs

/-! Neighbours in a finite set of a linear order: `b` follows `a` when nothing of the set lies between them. -/

namespace Novino

variable {α : Type} [LinearOrder α]

def Next (S : Finset α) (a b : α) : Prop :=
  a ∈ S ∧ b ∈ S ∧ a < b ∧ ∀ c ∈ S, c ≤ a ∨ b ≤ c

namespace Next

variable {S : Finset α} {a b d n x y z : α}

section
variable (h : Next S a b)
include h

theorem left : a ∈ S := h.1

theorem right : b ∈ S := h.2.1

theorem lt : a < b := h.2.2.1

theorem between (hx : x ∈ S) : x ≤ a ∨ b ≤ x := h.2.2.2 x hx

theorem eq_right (h' : Next S a d) : b = d := by
  rcases h.between h'.right with hd | hd
  · exact absurd (hd.trans_lt h'.lt) (lt_irrefl _)
  rcases h'.between h.right with hb | hb
  · exact absurd (hb.trans_lt h.lt) (lt_irrefl _)
  · exact le_antisymm hd hb

theorem eq_left (h' : Next S d b) : a = d := by
  rcases h.between h'.left with hd | hd
  · rcases h'.between h.left with ha | ha
    · exact le_antisymm ha hd
    · exact absurd (h.lt.trans_le ha) (lt_irrefl _)
  · exact absurd (h'.lt.trans_le hd) (lt_irrefl _)

end

theorem exists_right (ha : a ∈ S) (hz : z ∈ S) (hlt : a < z) : ∃ b, Next S a b := by
  have hne : (S.filter (a < ·)).Nonempty := ⟨z, Finset.mem_filter.mpr ⟨hz, hlt⟩⟩
  obtain ⟨hmem, hgt⟩ := Finset.mem_filter.mp (Finset.min'_mem _ hne)
  refine ⟨_, ha, hmem, hgt, fun c hc => ?_⟩
  rcases le_or_gt c a with h | h
  · exact .inl h
  · exact .inr (Finset.min'_le _ _ (Finset.mem_filter.mpr ⟨hc, h⟩))

theorem exists_left (ha : a ∈ S) (hz : z ∈ S) (hlt : z < a) : ∃ b, Next S b a := by
  have hne : (S.filter (· < a)).Nonempty := ⟨z, Finset.mem_filter.mpr ⟨hz, hlt⟩⟩
  obtain ⟨hmem, hgt⟩ := Finset.mem_filter.mp (Finset.max'_mem _ hne)
  refine ⟨_, hmem, ha, hgt, fun c hc => ?_⟩
  rcases le_or_gt a c with h | h
  · exact .inr h
  · exact .inl (Finset.le_max' _ _ (Finset.mem_filter.mpr ⟨hc, h⟩))

theorem insert_above (h : Next S a b) (hn : b ≤ n) : Next (insert n S) a b := by
  refine ⟨Finset.mem_insert_of_mem h.left, Finset.mem_insert_of_mem h.right, h.lt, fun c hc => ?_⟩
  rcases Finset.mem_insert.mp hc with rfl | hcS
  · exact .inr hn
  · exact h.between hcS

theorem insert_between (h : Next S a b) (han : a < n) (hnb : n < b) : Next (insert n S) n b := by
  refine ⟨Finset.mem_insert_self n S, Finset.mem_insert_of_mem h.right, hnb, fun c hc => ?_⟩
  rcases Finset.mem_insert.mp hc with rfl | hcS
  · exact .inl le_rfl
  · exact (h.between hcS).imp_left fun hca => hca.trans han.le

theorem of_insert (h : Next S a b) (han : a < n) (hnb : n < b) (h' : Next (insert n S) x y) :
    (x = a ∧ y = n) ∨ (x = n ∧ y = b) ∨ (Next S x y ∧ x ≠ a ∧ y ≠ b) := by
  obtain ⟨hx, hy, hlt, hno⟩ := h'
  have hS : ∀ c ∈ S, c ≤ x ∨ y ≤ c := fun c hc => hno c (Finset.mem_insert_of_mem hc)
  have hn := hno n (Finset.mem_insert_self n S)
  rcases Finset.mem_insert.mp hx with rfl | hxS
  · refine .inr (.inl ⟨rfl, ?_⟩)
    have hyS := (Finset.mem_insert.mp hy).resolve_left hlt.ne'
    rcases h.between hyS with hya | hby
    · exact absurd (hlt.trans_le hya) (not_lt.mpr han.le)
    · exact le_antisymm ((hS b h.right).resolve_left (not_le.mpr hnb)) hby
  rcases Finset.mem_insert.mp hy with rfl | hyS
  · refine .inl ⟨?_, rfl⟩
    rcases h.between hxS with hxa | hbx
    · exact le_antisymm hxa ((hS a h.left).resolve_right (not_le.mpr han))
    · exact absurd (hbx.trans_lt hlt) (not_lt.mpr hnb.le)
  · refine .inr (.inr ⟨⟨hxS, hyS, hlt, hS⟩, ?_, ?_⟩)
    · rintro rfl
      have hby := (h.between hyS).resolve_left (not_le.mpr hlt)
      exact hn.elim (fun h' => absurd han (not_lt.mpr h')) fun h' => absurd (hnb.trans_le hby) (not_lt.mpr h')
    · rintro rfl
      have hxa := (h.between hxS).resolve_right (not_le.mpr hlt)
      exact hn.elim (fun h' => absurd (hxa.trans_lt han) (not_lt.mpr h')) fun h' => absurd hnb (not_lt.mpr h')

theorem of_erase (h : Next S a b) (h₂ : Next S b d) (h' : Next (S.erase b) x y) :
    (x = a ∧ y = d) ∨ (Next S x y ∧ x ≠ a ∧ x ≠ b ∧ y ≠ b ∧ y ≠ d) := by
  obtain ⟨hx, hy, hlt, hno⟩ := h'
  obtain ⟨hxb, hxS⟩ := Finset.mem_erase.mp hx
  obtain ⟨hyb, hyS⟩ := Finset.mem_erase.mp hy
  have hkeep : ∀ c ∈ S, c ≠ b → c ≤ x ∨ y ≤ c := fun c hc hcb => hno c (Finset.mem_erase.mpr ⟨hcb, hc⟩)
  have ha := hkeep a h.left h.lt.ne
  have hd := hkeep d h₂.right h₂.lt.ne'
  by_cases hxa : x = a
  · subst hxa
    refine .inl ⟨rfl, le_antisymm (hd.resolve_left (not_le.mpr (h.lt.trans h₂.lt))) ?_⟩
    have hby := (h.between hyS).resolve_left (not_le.mpr hlt)
    exact (h₂.between hyS).resolve_left fun hle => hyb (le_antisymm hle hby)
  by_cases hyd : y = d
  · subst hyd
    have hxb' := (h₂.between hxS).resolve_right (not_le.mpr hlt)
    have hxa' := (h.between hxS).resolve_right fun hle => hxb (le_antisymm hxb' hle)
    exact absurd (le_antisymm hxa' (ha.resolve_right (not_le.mpr (h.lt.trans h₂.lt)))) hxa
  · refine .inr ⟨⟨hxS, hyS, hlt, fun c hc => ?_⟩, hxa, hxb, hyb, hyd⟩
    by_cases hcb : c = b
    · subst hcb
      -- Both ends lie on one side of the element taken away.
      rcases ha with hax | hya
      · rcases h.between hxS with hxa' | hcx
        · exact absurd (le_antisymm hxa' hax) hxa
        · exact .inl hcx
      · exact .inr (hya.trans h.lt.le)
    · exact hkeep c hc hcb

theorem of_insert_top (ha : a ∈ S) (hmax : ∀ c ∈ S, c ≤ a) (han : a < n) (h' : Next (insert n S) x y) :
    (x = a ∧ y = n) ∨ Next S x y := by
  obtain ⟨hx, hy, hlt, hno⟩ := h'
  have hxS : x ∈ S := by
    rcases Finset.mem_insert.mp hx with rfl | hxS
    · have hyS := (Finset.mem_insert.mp hy).resolve_left hlt.ne'
      exact absurd (hmax y hyS) (not_le.mpr (han.trans hlt))
    · exact hxS
  rcases Finset.mem_insert.mp hy with rfl | hyS
  · have hax := (hno a (Finset.mem_insert_of_mem ha)).resolve_right (not_le.mpr han)
    exact .inl ⟨le_antisymm (hmax x hxS) hax, rfl⟩
  · exact .inr ⟨hxS, hyS, hlt, fun c hc => hno c (Finset.mem_insert_of_mem hc)⟩

end Next
end Novino
