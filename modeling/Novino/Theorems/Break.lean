import Novino.Lib.Steps
import Novino.Mem.Brk

/-! The break of a process: the pages below it are mapped and those above it are not, whatever fails. -/

namespace Novino.Mem

namespace PageMap

variable {m : PageMap} {virt : Nat} (p : Option Page)

theorem vmmAllocPage_none (h : m.page virt = none) (hg : m.grants m.asked = none) :
    m.vmmAllocPage virt = (m.ask, false) := by
  simp [vmmAllocPage, h, hg]

theorem vmmAllocPage_some (h : m.page virt = none) {phys : Nat} (hg : m.grants m.asked = some phys) :
    m.vmmAllocPage virt = (m.ask.set virt (some (fresh phys true)), true) := by
  simp [vmmAllocPage, h, hg]

theorem vmmFreePage_isSome (h : (m.page virt).isSome) : m.vmmFreePage virt = (m.set virt none, true) := by
  simp [vmmFreePage, h]

@[simp] theorem set_page (a : Nat) : (m.set virt p).page a = if a = virt then p else m.page a :=
  Function.update_apply ..

@[simp] theorem set_grants : (m.set virt p).grants = m.grants := rfl

@[simp] theorem set_asked : (m.set virt p).asked = m.asked := rfl

@[simp] theorem ask_page : m.ask.page = m.page := rfl

@[simp] theorem ask_grants : m.ask.grants = m.grants := rfl

@[simp] theorem ask_asked : m.ask.asked = m.asked + 1 := rfl

end PageMap

theorem dvd_alignUp (a : Nat) : PAGE_SIZE ∣ alignUp a := by
  unfold alignUp alignDown PAGE_SIZE
  split <;> omega

namespace Process

variable {p : Process} {n brk : Nat} {last goal : Nat}

/-- The break area: exactly the pages below the break are mapped. -/
structure Area (p : Process) : Prop where
  start : PAGE_SIZE ∣ p.start
  fin : PAGE_SIZE ∣ p.fin
  le : p.start ≤ p.fin
  top : p.fin = p.start ∨ p.fin ≤ p.max
  mapped : ∀ a, PAGE_SIZE ∣ a → p.start ≤ a → a < p.max → ((p.pages.page a).isSome ↔ a < p.fin)

def grown (p : Process) (phys : Nat) : Process :=
  { p with fin := p.fin + PAGE_SIZE, pages := p.pages.ask.set p.fin (some (PageMap.fresh phys true)) }

theorem Area.grown (h : p.Area) (hmax : p.fin + PAGE_SIZE ≤ p.max) (phys : Nat) : (p.grown phys).Area := by
  refine ⟨h.start, Nat.dvd_add h.fin (Nat.dvd_refl _), Nat.le_trans h.le (Nat.le_add_right ..), .inr hmax, ?_⟩
  intro a ha hs hm
  show ((p.pages.ask.set p.fin _).page a).isSome ↔ a < p.fin + PAGE_SIZE
  rw [PageMap.set_page]
  by_cases heq : a = p.fin
  · simp [heq, PAGE_SIZE]
  · rw [if_neg heq, PageMap.ask_page, h.mapped a ha hs hm]
    have hfin := h.fin
    unfold PAGE_SIZE at *
    omega

theorem Area.page_fin (h : p.Area) (hmax : p.fin < p.max) : p.pages.page p.fin = none := by
  have hnot := (h.mapped p.fin h.fin h.le hmax).not.mpr (Nat.lt_irrefl _)
  simpa using hnot

theorem growLoop_none (h : p.pages.page p.fin = none) (hg : p.pages.grants p.pages.asked = none) :
    p.growLoop (n + 1) = ({ p with pages := p.pages.ask }, false) := by
  simp [growLoop, PageMap.vmmAllocPage_none h hg]

theorem growLoop_some (h : p.pages.page p.fin = none) {phys : Nat}
    (hg : p.pages.grants p.pages.asked = some phys) : p.growLoop (n + 1) = (p.grown phys).growLoop n := by
  simp [growLoop, PageMap.vmmAllocPage_some h hg, grown]

theorem Area.growLoop (h : p.Area) (hmax : p.fin + n * PAGE_SIZE ≤ p.max) :
    (p.growLoop n).1.Area ∧ p.fin ≤ (p.growLoop n).1.fin := by
  induction n generalizing p with
  | zero => exact ⟨h, Nat.le_refl _⟩
  | succ n ih =>
    rw [Nat.succ_mul] at hmax
    have hlt : p.fin < p.max := by unfold PAGE_SIZE at hmax; omega
    have hfree := h.page_fin hlt
    cases hg : p.pages.grants p.pages.asked with
    | none =>
      rw [growLoop_none hfree hg]
      exact ⟨⟨h.start, h.fin, h.le, h.top, h.mapped⟩, Nat.le_refl _⟩
    | some phys =>
      rw [growLoop_some hfree hg]
      have hgrown := ih (h.grown (by omega) phys) (by simp only [Process.grown]; omega)
      exact ⟨hgrown.1, Nat.le_trans (Nat.le_add_right ..) hgrown.2⟩

theorem Area.growLoop_ok (h : p.Area) (hmax : p.fin + n * PAGE_SIZE ≤ p.max) :
    (p.growLoop n).2 = true ↔ ∀ i < n, p.pages.grants (p.pages.asked + i) ≠ none := by
  induction n generalizing p with
  | zero => simp [Process.growLoop]
  | succ n ih =>
    rw [Nat.succ_mul] at hmax
    have hlt : p.fin < p.max := by unfold PAGE_SIZE at hmax; omega
    have hfree := h.page_fin hlt
    rw [Nat.forall_lt_succ_left]
    cases hg : p.pages.grants p.pages.asked with
    | none => simp [growLoop_none hfree hg]
    | some phys =>
      rw [growLoop_some hfree hg, ih (h.grown (by omega) phys) (by simp only [Process.grown]; omega)]
      simp [Process.grown, Nat.add_assoc, Nat.add_comm 1]

def shrunk (p : Process) (last : Nat) : Process := { p with fin := last, pages := p.pages.set last none }

theorem Area.shrunk (h : p.Area) (hlast : last + PAGE_SIZE = p.fin) (hle : p.start ≤ last) :
    (p.shrunk last).Area := by
  have hdvd : PAGE_SIZE ∣ last := (Nat.dvd_add_left (Nat.dvd_refl _)).mp (hlast ▸ h.fin)
  have htop : last = p.start ∨ last ≤ p.max := by
    have hfin := h.top
    omega
  refine ⟨h.start, hdvd, hle, htop, ?_⟩
  intro a ha hs hm
  show ((p.pages.set last none).page a).isSome ↔ a < last
  rw [PageMap.set_page]
  by_cases heq : a = last
  · simp [heq]
  · rw [if_neg heq, h.mapped a ha hs hm]
    unfold PAGE_SIZE at *
    omega

theorem Area.shrinkLoop_succ (h : p.Area) (hlast : last + PAGE_SIZE = p.fin) (hle : p.start ≤ last) :
    p.shrinkLoop (n + 1) = (p.shrunk last).shrinkLoop n := by
  have heq : p.fin - PAGE_SIZE = last := by omega
  have hdvd : PAGE_SIZE ∣ last := (Nat.dvd_add_left (Nat.dvd_refl _)).mp (hlast ▸ h.fin)
  have hlt : last < p.fin := by unfold PAGE_SIZE at hlast; omega
  have hmax : last < p.max := by have htop := h.top; omega
  have hmapped := (h.mapped last hdvd hle hmax).mpr hlt
  simp [shrinkLoop, heq, PageMap.vmmFreePage_isSome hmapped, Process.shrunk]

theorem Area.shrinkLoop (h : p.Area) (hgoal : goal + n * PAGE_SIZE = p.fin) (hle : p.start ≤ goal) :
    (p.shrinkLoop n).1.Area ∧ (p.shrinkLoop n).2 = true ∧ (p.shrinkLoop n).1.start = p.start ∧
      (p.shrinkLoop n).1.max = p.max ∧ (p.shrinkLoop n).1.fin = goal := by
  induction n generalizing p with
  | zero =>
    rw [Nat.zero_mul] at hgoal
    exact ⟨h, rfl, rfl, rfl, hgoal.symm⟩
  | succ n ih =>
    rw [Nat.succ_mul, ← Nat.add_assoc] at hgoal
    have hlast : p.start ≤ goal + n * PAGE_SIZE := Nat.le_trans hle (Nat.le_add_right ..)
    rw [h.shrinkLoop_succ hgoal hlast]
    exact ih (h.shrunk hgoal hlast) rfl hle

theorem pagesIn_mul (h : PAGE_SIZE ∣ n) : pagesIn n * PAGE_SIZE = n := by
  unfold pagesIn PAGE_SIZE at *
  omega

/-- A request keeps the area, reports the break, and changes nothing when it fails. -/
def Right (p : Process) (brk : Nat) : Prop :=
  (p.sysBrk brk).1.Area ∧ (∀ e, (p.sysBrk brk).2 = .ok e → e = (p.sysBrk brk).1.fin) ∧
    ∀ e, (p.sysBrk brk).2 = .error e →
      (p.sysBrk brk).1.fin = p.fin ∧ (p.sysBrk brk).1.pages.page = p.pages.page

/-- A request that grows the segment gets all the pages it asks for, or not even the first one. -/
def Whole (p : Process) (brk : Nat) : Prop :=
  brk ≠ 0 → p.fin < alignUp brk → alignUp brk ≤ p.max →
    p.pages.grants p.pages.asked = none ∨
      ∀ i < pagesIn (alignUp brk - p.fin), p.pages.grants (p.pages.asked + i) ≠ none

instance : Decidable (p.Whole brk) :=
  inferInstanceAs (Decidable (_ → _ → _ → _ ∨ ∀ i < _, p.pages.grants (p.pages.asked + i) ≠ none))

theorem sysBrk_still (h : brk = 0 ∨ alignUp brk = p.fin ∨ alignUp brk < p.start ∨ p.max < alignUp brk) :
    (p.sysBrk brk).1 = p ∧ ∀ e, (p.sysBrk brk).2 = .ok e → e = p.fin := by
  unfold sysBrk
  by_cases h0 : brk = 0
  · simp [h0, eq_comm]
  by_cases hfin : alignUp brk = p.fin
  · simp [h0, hfin, eq_comm]
  by_cases hstart : alignUp brk < p.start
  · simp [h0, hfin, hstart]
  have hmax : p.max < alignUp brk := by omega
  simp [h0, hfin, hstart, hmax]

theorem Area.sysBrk_grow (h : p.Area) (h0 : brk ≠ 0) (hlt : p.fin < alignUp brk) (hmax : alignUp brk ≤ p.max) :
    p.sysBrk brk =
      let r := p.growLoop (pagesIn (alignUp brk - p.fin))
      (r.1, if r.2 then .ok r.1.fin else .error (-ENOMEM)) := by
  have hstart : ¬ alignUp brk < p.start := by have hle := h.le; omega
  have hne : alignUp brk ≠ p.fin := by omega
  have hmax' : ¬ p.max < alignUp brk := by omega
  simp only [Process.sysBrk, h0, hne, hstart, hmax', hlt, if_false, if_true]

theorem sysBrk_shrink (h0 : brk ≠ 0) (hlt : alignUp brk < p.fin) (hstart : p.start ≤ alignUp brk)
    (hmax : alignUp brk ≤ p.max) :
    p.sysBrk brk =
      let r := p.shrinkLoop (pagesIn (p.fin - alignUp brk))
      (r.1, if r.2 then .ok r.1.fin else .error (-ENOMEM)) := by
  have hstart' : ¬ alignUp brk < p.start := by omega
  have hne : alignUp brk ≠ p.fin := by omega
  have hmax' : ¬ p.max < alignUp brk := by omega
  have hlt' : ¬ p.fin < alignUp brk := by omega
  simp only [sysBrk, h0, hne, hstart', hmax', hlt', if_false]

theorem Area.right_grow (h : p.Area) (h0 : brk ≠ 0) (hlt : p.fin < alignUp brk) (hmax : alignUp brk ≤ p.max) :
    (p.sysBrk brk).1.Area ∧ (p.Right brk ↔ p.pages.grants p.pages.asked = none ∨
      ∀ i < pagesIn (alignUp brk - p.fin), p.pages.grants (p.pages.asked + i) ≠ none) := by
  have hpages := pagesIn_mul (Nat.dvd_sub (dvd_alignUp brk) h.fin)
  have hfin : p.fin + pagesIn (alignUp brk - p.fin) * PAGE_SIZE ≤ p.max := by omega
  have harea := h.growLoop hfin
  have hok := h.growLoop_ok hfin
  unfold Right
  rw [h.sysBrk_grow h0 hlt hmax]
  refine ⟨harea.1, ?_⟩
  obtain ⟨n, hn⟩ : ∃ n, pagesIn (alignUp brk - p.fin) = n + 1 := by
    refine Nat.exists_eq_succ_of_ne_zero fun hzero => ?_
    rw [hzero] at hpages
    omega
  have hfree := h.page_fin (by omega)
  rw [hn] at hfin harea hok ⊢
  rw [← hok]
  cases hg : p.pages.grants p.pages.asked with
  | none =>
    rw [growLoop_none hfree hg] at harea ⊢
    simpa using harea.1
  | some phys =>
    -- The first page moves the break, and nothing moves it back.
    rw [growLoop_some hfree hg] at harea hok ⊢
    have hmoved : ((p.grown phys).growLoop n).1.fin ≠ p.fin := by
      have hle := ((h.grown (by rw [Nat.succ_mul] at hfin; omega) phys).growLoop (n := n)
        (by rw [Nat.succ_mul] at hfin; simp only [Process.grown]; omega)).2
      simp only [Process.grown, PAGE_SIZE] at hle ⊢
      omega
    cases hr : ((p.grown phys).growLoop n).2 <;> simp [hr, hmoved, harea.1]

theorem Area.sysBrk (h : p.Area) (brk : Nat) : (p.sysBrk brk).1.Area ∧ (p.Right brk ↔ p.Whole brk) := by
  by_cases hstill : brk = 0 ∨ alignUp brk = p.fin ∨ alignUp brk < p.start ∨ p.max < alignUp brk
  · obtain ⟨hp, hok⟩ := sysBrk_still hstill
    have hwhole : p.Whole brk := by
      intro h0 hlt hmax
      have hle := h.le
      omega
    unfold Right
    rw [hp]
    exact ⟨h, iff_of_true ⟨h, hok, fun _ _ => ⟨rfl, rfl⟩⟩ hwhole⟩
  · obtain ⟨h0, hne, hstart, hmax⟩ : brk ≠ 0 ∧ alignUp brk ≠ p.fin ∧ p.start ≤ alignUp brk ∧ alignUp brk ≤ p.max := by
      omega
    by_cases hlt : p.fin < alignUp brk
    · have hgrow := h.right_grow h0 hlt hmax
      exact ⟨hgrow.1, hgrow.2.trans ⟨fun hall _ _ _ => hall, fun hw => hw h0 hlt hmax⟩⟩
    · have hback : alignUp brk < p.fin := by omega
      have hpages := pagesIn_mul (Nat.dvd_sub h.fin (dvd_alignUp brk))
      have hgoal : alignUp brk + pagesIn (p.fin - alignUp brk) * PAGE_SIZE = p.fin := by omega
      obtain ⟨harea, hok, -⟩ := h.shrinkLoop hgoal hstart
      have hwhole : p.Whole brk := fun _ hlt' _ => absurd hlt' hlt
      unfold Right
      rw [sysBrk_shrink h0 hback hstart hmax]
      refine ⟨harea, iff_of_true ⟨harea, ?_, ?_⟩ hwhole⟩ <;> simp [hok, eq_comm]

theorem growLoop_reach (n : Nat) (p : Process) : (p.growLoop n).1.start = p.start ∧ (p.growLoop n).1.max = p.max ∧
    ((p.growLoop n).2 = true → (p.growLoop n).1.fin = p.fin + n * PAGE_SIZE) := by
  induction n generalizing p with
  | zero => simp [Process.growLoop]
  | succ n ih =>
    rw [Process.growLoop]
    split
    · obtain ⟨hstart, hmax, hfin⟩ := ih { p with fin := p.fin + PAGE_SIZE, pages := (p.pages.vmmAllocPage p.fin).1 }
      refine ⟨hstart, hmax, fun hok => (hfin hok).trans ?_⟩
      rw [Nat.succ_mul, Nat.add_right_comm, Nat.add_assoc]
    · exact ⟨rfl, rfl, fun hok => absurd hok Bool.false_ne_true⟩

/-- The break can be moved to a page: it is not above the break, or there is room and memory for the pages between. -/
def Reaches (p : Process) (goal : Nat) : Prop :=
  goal ≤ p.fin ∨ goal ≤ p.max ∧ ∀ i < pagesIn (goal - p.fin), p.pages.grants (p.pages.asked + i) ≠ none

instance {goal : Nat} : Decidable (p.Reaches goal) :=
  inferInstanceAs (Decidable (_ ∨ _ ∧ ∀ i < _, p.pages.grants (p.pages.asked + i) ≠ none))

structure Reached (p : Process) (goal : Nat) (q : Process) : Prop where
  area : q.Area
  start : q.start = p.start
  max : q.max = p.max
  fin : goal ≤ q.fin

/-- A request for a page of the area is met exactly if the break can be moved there. -/
theorem Area.request (h : p.Area) (hpage : PAGE_SIZE ∣ goal) (h0 : goal ≠ 0) (hlo : p.start ≤ goal) :
    p.Reaches goal ∧ (p.sysBrk goal).2 = .ok goal ∧ p.Reached goal (p.sysBrk goal).1 ∨
      ¬p.Reaches goal ∧ (∃ e, (p.sysBrk goal).2 = .error e) ∧ p.Reached p.fin (p.sysBrk goal).1 := by
  have halign : alignUp goal = goal := if_pos (Nat.mod_eq_zero_of_dvd hpage)
  have htop := h.top
  have harea := (h.sysBrk goal).1
  rcases Nat.lt_trichotomy goal p.fin with hlt | heq | hgt
  · have hpages := pagesIn_mul (Nat.dvd_sub h.fin hpage)
    have hgoal : goal + pagesIn (p.fin - goal) * PAGE_SIZE = p.fin := by omega
    have heq := sysBrk_shrink (p := p) h0 (halign.symm ▸ hlt) (halign.symm ▸ hlo) (by rw [halign]; omega)
    obtain ⟨-, hok, hstart, hmax, hfin⟩ := h.shrinkLoop hgoal hlo
    rw [halign] at heq
    rw [heq] at harea ⊢
    refine .inl ⟨.inl hlt.le, ?_, harea, hstart, hmax, hfin.ge⟩
    simp only [hok, if_true, hfin]
  · subst heq
    have hsame : p.sysBrk p.fin = (p, .ok p.fin) := by
      unfold Process.sysBrk
      simp only [if_neg h0, halign, if_true]
    rw [hsame]
    exact .inl ⟨.inl (Nat.le_refl _), rfl, h, rfl, rfl, Nat.le_refl _⟩
  · by_cases hmax : goal ≤ p.max
    · have hpages := pagesIn_mul (Nat.dvd_sub hpage h.fin)
      have hfin : p.fin + pagesIn (goal - p.fin) * PAGE_SIZE ≤ p.max := by omega
      have heq := h.sysBrk_grow h0 (halign.symm ▸ hgt) (halign.symm ▸ hmax)
      have hok := h.growLoop_ok hfin
      have hle := (h.growLoop hfin).2
      obtain ⟨hstart', hmax', hfin'⟩ := growLoop_reach (pagesIn (goal - p.fin)) p
      rw [halign] at heq
      rw [heq] at harea ⊢
      cases hr : (p.growLoop (pagesIn (goal - p.fin))).2 with
      | true =>
        have hgoal : (p.growLoop (pagesIn (goal - p.fin))).1.fin = goal := (hfin' hr).trans (by omega)
        refine .inl ⟨.inr ⟨hmax, hok.mp hr⟩, ?_, harea, hstart', hmax', hgoal.ge⟩
        simp only [hr, if_true, hgoal]
      | false =>
        refine .inr ⟨?_, ⟨-ENOMEM, ?_⟩, harea, hstart', hmax', hle⟩
        · rintro (hle' | ⟨-, hall⟩)
          · omega
          · exact absurd (hok.mpr hall) (by rw [hr]; exact Bool.false_ne_true)
        · simp only [hr, Bool.false_eq_true, if_false]
    · have hfails : p.sysBrk goal = (p, .error (-EFAULT)) := by
        unfold Process.sysBrk
        rw [if_neg h0]
        simp only [halign]
        rw [if_neg (by omega), if_neg (by omega), if_pos (by omega)]
      rw [hfails]
      refine .inr ⟨?_, ⟨_, rfl⟩, h, rfl, rfl, Nat.le_refl _⟩
      rintro (hle | ⟨hle, -⟩) <;> omega

structure Loaded (p : Process) : Prop where
  start : PAGE_SIZE ∣ p.start
  fin : p.fin = p.start
  free : ∀ a, p.start ≤ a → a < p.max → p.pages.page a = none

theorem Loaded.area (h : p.Loaded) : p.Area := by
  refine ⟨h.start, h.fin ▸ h.start, Nat.le_of_eq h.fin.symm, .inl h.fin, fun a _ hs hm => ?_⟩
  rw [h.free a hs hm, h.fin]
  simpa using hs

/-- With memory running out anywhere, the mapped pages are those below the break and a failed request changes nothing,
exactly if no growth gets only part of its pages. -/
theorem break_requests_iff (h : p.Loaded) (brks : List Nat) :
    Steps.Along (fun p brk => (p.sysBrk brk).1) Right p brks ↔
      Steps.Along (fun p brk => (p.sysBrk brk).1) Whole p brks :=
  Steps.Along.congr (P := fun _ _ => True) (I := Area) (fun _ _ hI _ _ => (hI.sysBrk _).1)
    (fun _ _ hI _ => (hI.sysBrk _).2) h.area (Steps.Along.of_forall fun _ _ => trivial)

def oneFrame : Process :=
  ⟨0x400000, 0x400000, 0x200000000000, ⟨fun _ => none, fun n => if n = 0 then some 0x1000 else none, 0⟩⟩

theorem oneFrame_loaded : oneFrame.Loaded := ⟨by decide, rfl, fun _ _ _ => rfl⟩

theorem break_requests_one_frame :
    Steps.Along (fun p brk => (p.sysBrk brk).1) Right oneFrame [0x400001, 0x402000, 0x400000, 0, 2 ^ 64 - 1] :=
  (break_requests_iff oneFrame_loaded _).mpr (by decide +kernel)

/-- A growth by two pages that gets one fails, and keeps that page and the break behind it. -/
theorem break_partial_growth :
    (oneFrame.sysBrk 0x402000).2 = .error (-ENOMEM) ∧ (oneFrame.sysBrk 0x402000).1.fin = 0x401000 ∧
      ((oneFrame.sysBrk 0x402000).1.pages.page 0x400000).isSome ∧ ¬ Right oneFrame 0x402000 := by
  have hfails : (oneFrame.sysBrk 0x402000).2 = .error (-ENOMEM) := by decide +kernel
  have hfin : (oneFrame.sysBrk 0x402000).1.fin = 0x401000 := by decide +kernel
  refine ⟨hfails, hfin, by decide +kernel, fun hright => ?_⟩
  have hsame := (hright.2.2 _ hfails).1
  rw [hfin] at hsame
  exact absurd hsame (by decide)

end Process
end Novino.Mem
