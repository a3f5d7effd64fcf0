import Mathlib.Data.List.Chain

/-! Doubly linked lists whose nodes are addresses, 0 being the null pointer: `next x` and `prev x` are
    what node `x` holds. The list is closed by null pointers on both sides. -/

namespace Novino

/-- `y` comes after `x`; either may be the null pointer at an end of the list. -/
def Link (next prev : ℕ → ℕ) (x y : ℕ) : Prop := (x ≠ 0 → next x = y) ∧ (y ≠ 0 → prev y = x)

def Linking (next prev : ℕ → ℕ) (l : List ℕ) : Prop := List.IsChain (Link next prev) (0 :: (l ++ [0]))

namespace Linking

variable {next prev next' prev' : ℕ → ℕ} {l r : List ℕ} {c : ℕ}

theorem nil : Linking next prev [] := by
  unfold Linking
  simp [Link]

theorem congr (h : Linking next prev l) (hn : ∀ x ∈ l, next' x = next x) (hp : ∀ x ∈ l, prev' x = prev x) :
    Linking next' prev' l := by
  refine List.IsChain.imp_of_mem_imp (fun x y hx hy hxy => ?_) h
  have hmem : ∀ {z}, z ∈ 0 :: (l ++ [0]) → z ≠ 0 → z ∈ l := by
    intro z hz hz0
    simpa [hz0] using hz
  exact ⟨fun h0 => (hn x (hmem hx h0)).trans (hxy.1 h0), fun h0 => (hp y (hmem hy h0)).trans (hxy.2 h0)⟩

theorem push (h : Linking next prev l) (hn : ∀ x ∈ l, next' x = next x) (hp : ∀ x ∈ l.tail, prev' x = prev x)
    (hhead : ∀ x ∈ l.head?, prev' x = c) (hc : next' c = l.headD 0) (hc' : prev' c = 0) :
    Linking next' prev' (c :: l) := by
  unfold Linking at *
  cases l with
  | nil => simpa [Link] using ⟨fun _ => hc', fun _ => hc⟩
  | cons y l =>
    rw [List.cons_append, List.isChain_cons_cons] at h
    rw [List.cons_append, List.cons_append, List.isChain_cons_cons, List.isChain_cons_cons]
    refine ⟨⟨fun h0 => absurd rfl h0, fun _ => hc'⟩, ⟨fun _ => hc, fun _ => hhead y rfl⟩, ?_⟩
    refine List.IsChain.imp_of_mem_tail_imp (fun x z hx hz hxz => ?_) h.2
    constructor
    · intro h0
      exact (hn x (by simpa [h0] using hx)).trans (hxz.1 h0)
    · intro h0
      exact (hp z (by simpa [h0] using hz)).trans (hxz.2 h0)

theorem getLastD_mem (h0 : l.getLastD 0 ≠ 0) : l.getLastD 0 ∈ l := by
  cases l with
  | nil => exact absurd rfl h0
  | cons y l =>
    rw [List.getLastD_cons, ← List.getLast_eq_getLastD (List.cons_ne_nil y l)]
    exact List.getLast_mem _

theorem headD_mem (h0 : r.headD 0 ≠ 0) : r.headD 0 ∈ r := by
  cases r with
  | nil => exact absurd rfl h0
  | cons y r => exact List.mem_cons_self

theorem exists_last (l : List ℕ) : ∃ A, 0 :: l = A ++ [l.getLastD 0] := by
  refine ⟨(0 :: l).dropLast, ?_⟩
  rw [← List.getLast_eq_getLastD (List.cons_ne_nil 0 l), List.dropLast_append_getLast]

theorem exists_head (r : List ℕ) : ∃ B, r ++ [0] = r.headD 0 :: B := by
  cases r with
  | nil => exact ⟨[], rfl⟩
  | cons y r => exact ⟨r ++ [0], rfl⟩

theorem cut (h : Linking next prev (l ++ c :: r)) :
    List.IsChain (Link next prev) (0 :: l) ∧ Link next prev (l.getLastD 0) c ∧
      Link next prev c (r.headD 0) ∧ List.IsChain (Link next prev) (r ++ [0]) := by
  unfold Linking at h
  obtain ⟨A, hA⟩ := exists_last l
  obtain ⟨B, hB⟩ := exists_head r
  rw [List.append_assoc, List.cons_append, ← List.cons_append, hA, hB, List.append_assoc] at h
  obtain ⟨hl, hlc, hr⟩ := List.isChain_append_cons_cons.mp h
  obtain ⟨hcr, hr⟩ := List.isChain_cons_cons.mp hr
  rw [hA, hB]
  exact ⟨hl, hlc, hcr, hr⟩

theorem join (hl : List.IsChain (Link next prev) (0 :: l)) (hr : List.IsChain (Link next prev) (r ++ [0]))
    (hlr : Link next prev (l.getLastD 0) (r.headD 0)) : Linking next prev (l ++ r) := by
  unfold Linking
  obtain ⟨A, hA⟩ := exists_last l
  obtain ⟨B, hB⟩ := exists_head r
  rw [hA] at hl
  rw [hB] at hr
  rw [List.append_assoc, ← List.cons_append, hA, hB, List.append_assoc]
  exact List.isChain_append_cons_cons.mpr ⟨hl, hlr, hr⟩

theorem mid (h : Linking next prev (l ++ c :: r)) (hc : c ≠ 0) :
    next c = r.headD 0 ∧ prev c = l.getLastD 0 :=
  ⟨h.cut.2.2.1.1 hc, h.cut.2.1.2 hc⟩

theorem part (h : Linking next prev (l ++ r)) :
    List.IsChain (Link next prev) (0 :: l) ∧ Link next prev (l.getLastD 0) (r.headD 0) ∧
      List.IsChain (Link next prev) (r ++ [0]) := by
  unfold Linking at h
  obtain ⟨A, hA⟩ := exists_last l
  obtain ⟨B, hB⟩ := exists_head r
  rw [List.append_assoc, ← List.cons_append, hA, hB, List.append_assoc] at h
  rw [hA, hB]
  exact List.isChain_append_cons_cons.mp h

theorem front (h : List.IsChain (Link next prev) (0 :: l)) (hz : l.getLastD 0 ≠ 0 → next (l.getLastD 0) ∉ l)
    (hn : ∀ x ∈ l, x ≠ l.getLastD 0 → next' x = next x) (hp : ∀ x ∈ l, x ≠ 0 → prev' x = prev x) :
    List.IsChain (Link next' prev') (0 :: l) := by
  refine List.IsChain.imp_of_mem_tail_imp (fun x y hx hy hxy => ⟨fun hx0 => ?_, fun hy0 => ?_⟩) h
  · have hne : x ≠ l.getLastD 0 := by
      rintro rfl
      exact hz hx0 ((hxy.1 hx0).symm ▸ hy)
    exact (hn x ((List.mem_cons.mp hx).resolve_left hx0) hne).trans (hxy.1 hx0)
  · exact (hp y hy hy0).trans (hxy.2 hy0)

theorem rear (h : List.IsChain (Link next prev) (r ++ [0])) (hz : r.headD 0 ≠ 0 → prev (r.headD 0) ∉ r)
    (hn : ∀ x ∈ r, x ≠ 0 → next' x = next x) (hp : ∀ x ∈ r, x ≠ r.headD 0 → prev' x = prev x) :
    List.IsChain (Link next' prev') (r ++ [0]) := by
  obtain ⟨hr, -, hend⟩ := List.isChain_append.mp h
  refine List.isChain_append.mpr ⟨?_, List.isChain_singleton 0, fun x hx y hy => ?_⟩
  · refine List.IsChain.imp_of_mem_imp (fun x y hx hy hxy => ⟨fun hx0 => ?_, fun hy0 => ?_⟩) hr
    · exact (hn x hx hx0).trans (hxy.1 hx0)
    · have hne : y ≠ r.headD 0 := by
        rintro rfl
        exact hz hy0 ((hxy.2 hy0).symm ▸ hx)
      exact (hp y hy hne).trans (hxy.2 hy0)
  · have hxy := hend x hx y hy
    have hy0 : y = 0 := by simpa using hy.symm
    exact ⟨fun hx0 => (hn x (List.mem_of_getLast? hx) hx0).trans (hxy.1 hx0), fun h0 => absurd hy0 h0⟩

theorem splice (h : Linking next prev (l ++ r)) (h0 : 0 ∉ l ++ r) (hdis : ∀ x ∈ l, x ∉ r)
    (hc : next' c = r.headD 0) (hc' : prev' c = l.getLastD 0)
    (hp : l.getLastD 0 ≠ 0 → next' (l.getLastD 0) = c) (hn : r.headD 0 ≠ 0 → prev' (r.headD 0) = c)
    (hnext : ∀ x ∈ l ++ r, x ≠ l.getLastD 0 → next' x = next x)
    (hprev : ∀ x ∈ l ++ r, x ≠ r.headD 0 → prev' x = prev x) : Linking next' prev' (l ++ c :: r) := by
  obtain ⟨hl, hlr, hr⟩ := h.part
  rw [List.mem_append, not_or] at h0
  have hlast : l.getLastD 0 ∉ r := by
    by_cases hl0 : l.getLastD 0 = 0
    · exact hl0.symm ▸ h0.2
    · exact hdis _ (getLastD_mem hl0)
  have hhead : r.headD 0 ∉ l := by
    by_cases hr0 : r.headD 0 = 0
    · exact hr0.symm ▸ h0.1
    · exact fun hm => hdis _ hm (headD_mem hr0)
  have hl' : List.IsChain (Link next' prev') (0 :: l) := by
    refine front hl (fun hl0 => hlr.1 hl0 ▸ hhead) (fun x hx => hnext x (List.mem_append_left r hx)) ?_
    intro x hx _
    exact hprev x (List.mem_append_left r hx) (fun h => hhead (h ▸ hx))
  have hr' : List.IsChain (Link next' prev') (r ++ [0]) := by
    refine rear hr (fun hr0 => hlr.2 hr0 ▸ hlast) ?_ (fun x hx => hprev x (List.mem_append_right l hx))
    intro x hx _
    exact hnext x (List.mem_append_right l hx) (fun h => hlast (h ▸ hx))
  refine join hl' ?_ ⟨hp, fun _ => hc'⟩
  obtain ⟨B, hB⟩ := exists_head r
  rw [List.cons_append, hB, List.isChain_cons_cons, ← hB]
  exact ⟨⟨fun _ => hc, hn⟩, hr'⟩

theorem remove (h : Linking next prev (l ++ c :: r)) (hcl : c ∉ l) (hcr : c ∉ r)
    (hdis : ∀ x ∈ l, x ∉ r)
    (hp : l.getLastD 0 ≠ 0 → next' (l.getLastD 0) = r.headD 0)
    (hn : r.headD 0 ≠ 0 → prev' (r.headD 0) = l.getLastD 0)
    (hnext : ∀ x, x ∈ l ∨ x ∈ r → x ≠ l.getLastD 0 → next' x = next x)
    (hprev : ∀ x, x ∈ l ∨ x ∈ r → x ≠ r.headD 0 → prev' x = prev x) : Linking next' prev' (l ++ r) := by
  obtain ⟨hl, hlc, hcr', hr⟩ := h.cut
  refine join ?_ ?_ ⟨hp, hn⟩
  · refine front hl (fun hl0 => (hlc.1 hl0).symm ▸ hcl) (fun x hx => hnext x (.inl hx)) ?_
    rintro x hx hx0
    refine hprev x (.inl hx) ?_
    rintro rfl
    exact hdis _ hx (headD_mem hx0)
  · refine rear hr (fun hr0 => (hcr'.2 hr0).symm ▸ hcr) ?_ (fun x hx => hprev x (.inr hx))
    rintro x hx hx0
    refine hnext x (.inr hx) ?_
    rintro rfl
    exact hdis _ (getLastD_mem hx0) hx

end Linking
end Novino
