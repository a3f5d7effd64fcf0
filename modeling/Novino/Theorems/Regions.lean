import Novino.Lib.Tiles
import Novino.Mem.Map
import Novino.Theorems.Break

/-! The regions of a process, the pages that the loops over a region make present, and their modes. -/

namespace Novino.Mem

def cachingOf (flags : Nat) : Nat :=
  if has flags MAP_UC then PAT_UC else if has flags MAP_WC then PAT_WC else PAT_WB

def Page.Obeys (p : Page) (flags : Nat) : Prop :=
  p.caching = cachingOf flags ∧ p.write = !has flags MAP_READONLY ∧ p.exec = has flags MAP_EXEC

theorem PageMap.set_set (m : PageMap) (virt : Nat) (p q : Option Page) : (m.set virt p).set virt q = m.set virt q := by
  simp [PageMap.set]

theorem setModes_fresh (m : PageMap) (flags virt phys : Nat) (allocated : Bool) :
    ∃ p : Page, p.Obeys flags ∧
      setModes (m.set virt (some (PageMap.fresh phys allocated))) flags virt = m.set virt (some p) := by
  refine ⟨⟨phys, allocated, cachingOf flags, !has flags MAP_READONLY, has flags MAP_EXEC⟩, ⟨rfl, rfl, rfl⟩, ?_⟩
  unfold setModes cachingOf PageMap.vmmSetCaching PageMap.vmmSetMode
  split_ifs <;> simp [PageMap.fresh, PageMap.set_set]

/-! ### The loop that makes pages present -/

/-- What `vmm_alloc_page` and `vmm_map_page` have in common. -/
structure Enters (enter : PageMap → Nat → Nat → PageMap × Bool) : Prop where
  present : ∀ m virt offset, (m.page virt).isSome → enter m virt offset = (m, false)
  refused : ∀ m virt offset, m.page virt = none → m.grants m.asked = none → enter m virt offset = (m.ask, false)
  entered : ∀ m virt offset, m.page virt = none → m.grants m.asked ≠ none →
    ∃ phys allocated, enter m virt offset = (m.ask.set virt (some (PageMap.fresh phys allocated)), true)

theorem enters_alloc : Enters fun m addr _ => m.vmmAllocPage addr where
  present m virt _ h := by simp [PageMap.vmmAllocPage, h]
  refused m virt _ h hg := PageMap.vmmAllocPage_none h hg
  entered m virt _ h hg := by
    obtain ⟨phys, hphys⟩ := Option.ne_none_iff_exists'.mp hg
    exact ⟨phys, true, PageMap.vmmAllocPage_some h hphys⟩

theorem enters_map (phys : Nat) : Enters fun m addr offset => m.vmmMapPage addr ((phys + offset) % 2 ^ 64) where
  present m virt _ h := by simp [PageMap.vmmMapPage, h]
  refused m virt _ h hg := by simp [PageMap.vmmMapPage, h, hg]
  entered m virt offset h hg := by
    obtain ⟨frame, hframe⟩ := Option.ne_none_iff_exists'.mp hg
    exact ⟨(phys + offset) % 2 ^ 64, false, by simp [PageMap.vmmMapPage, h, hframe]⟩

theorem next_page (offset k : Nat) : offset + PAGE_SIZE + k * PAGE_SIZE = offset + (k + 1) * PAGE_SIZE := by
  rw [Nat.succ_mul, Nat.add_comm (k * PAGE_SIZE), ← Nat.add_assoc offset]

section Loop

variable {enter : PageMap → Nat → Nat → PageMap × Bool} {r : Region} {n offset : Nat} {m : PageMap}

section
variable (he : Enters enter) {a : Nat}
include he

theorem enterLoop_refused (h : m.page (r.virt offset) = none)
    (hg : m.grants m.asked = none) : enterLoop enter r (n + 1) offset m = (m.ask, false) := by
  simp [enterLoop, he.refused _ _ _ h hg]

theorem enterLoop_entered (h : m.page (r.virt offset) = none) (hg : m.grants m.asked ≠ none) :
    ∃ p : Page, p.Obeys r.flags ∧ enterLoop enter r (n + 1) offset m =
      enterLoop enter r n (offset + PAGE_SIZE) (m.ask.set (r.virt offset) (some p)) := by
  obtain ⟨phys, allocated, heq⟩ := he.entered m _ offset h hg
  obtain ⟨p, hp, hset⟩ := setModes_fresh m.ask r.flags (r.virt offset) phys allocated
  exact ⟨p, hp, by simp [enterLoop, heq, hset]⟩

theorem enterLoop_succ :
    (∃ m', m'.page = m.page ∧ enterLoop enter r (n + 1) offset m = (m', false)) ∨
    m.page (r.virt offset) = none ∧ ∃ p : Page, p.Obeys r.flags ∧ enterLoop enter r (n + 1) offset m =
      enterLoop enter r n (offset + PAGE_SIZE) (m.ask.set (r.virt offset) (some p)) := by
  by_cases hv : (m.page (r.virt offset)).isSome
  · exact .inl ⟨m, rfl, by simp [enterLoop, he.present _ _ _ hv]⟩
  rw [Option.not_isSome_iff_eq_none] at hv
  by_cases hg : m.grants m.asked = none
  · exact .inl ⟨m.ask, rfl, enterLoop_refused he hv hg⟩
  · exact .inr ⟨hv, enterLoop_entered he hv hg⟩

theorem enterLoop_keeps {p : Page} (h : m.page a = some p) :
    (enterLoop enter r n offset m).1.page a = some p := by
  induction n generalizing offset m with
  | zero => exact h
  | succ n ih =>
    rcases enterLoop_succ (n := n) he with ⟨m', hpage, heq⟩ | ⟨hv, q, -, heq⟩ <;> rw [heq]
    · exact (congrFun hpage a).trans h
    · have hne : a ≠ r.virt offset := by
        rintro rfl
        cases h.symm.trans hv
      refine ih ?_
      rw [PageMap.set_page, if_neg hne]
      exact h

theorem enterLoop_obeys (hok : (enterLoop enter r n offset m).2 = true) :
    ∀ k < n, ∃ p, (enterLoop enter r n offset m).1.page (r.virt (offset + k * PAGE_SIZE)) = some p ∧
      p.Obeys r.flags := by
  induction n generalizing offset m with
  | zero => intro k hk; omega
  | succ n ih =>
    intro k hk
    rcases enterLoop_succ (n := n) he with ⟨m', -, heq⟩ | ⟨-, p, hp, heq⟩ <;> rw [heq] at hok ⊢
    · cases hok
    cases k with
    | zero => exact ⟨p, enterLoop_keeps he (by simp), hp⟩
    | succ k =>
      have hk' := ih hok k (by omega)
      rwa [next_page] at hk'

theorem enterLoop_other (h : ∀ k < n, a ≠ r.virt (offset + k * PAGE_SIZE)) :
    (enterLoop enter r n offset m).1.page a = m.page a := by
  induction n generalizing offset m with
  | zero => rfl
  | succ n ih =>
    rcases enterLoop_succ (n := n) he with ⟨m', hpage, heq⟩ | ⟨-, p, -, heq⟩ <;> rw [heq]
    · exact congrFun hpage a
    rw [Nat.forall_lt_succ_left] at h
    have hrest : ∀ k < n, a ≠ r.virt (offset + PAGE_SIZE + k * PAGE_SIZE) :=
      fun k hk => next_page offset k ▸ h.2 k hk
    have hne : a ≠ r.virt offset := by simpa using h.1
    rw [ih hrest, PageMap.set_page, if_neg hne]
    rfl

end

end Loop

namespace Space

variable {s : Space} {f : Place} {m : PageMap}

@[simp] theorem write_pages (r : Region) : (s.write f r).pages = s.pages := rfl

@[simp] theorem write_regions (r : Region) : (s.write f r).regions = { f with region := r }.all := rfl

@[simp] theorem withPages_pages : (s.withPages m).pages = m := rfl

/-- The region that `mm_map_direct` writes before it maps the pages. -/
def directRegion (r : Region) (phys flags : Nat) : Region := { r with phys := phys, flags := flags ||| MAP_DIRECT }

end Space

variable {flags length flags' : Nat} {f : Place} {m m' : PageMap} {r : Region} {before after map : List Region}

theorem has_or_direct {flag : Nat} (h : MAP_DIRECT &&& flag = 0) :
    has (flags ||| MAP_DIRECT) flag = has flags flag := by
  simp [has, Nat.and_or_distrib_right, h]

theorem Space.splitRegion_region {s s' : Space} {g : Place}
    (h : s.splitRegion f length = (s', g, true)) :
    g.region = if f.region.length - length < PAGE_SIZE then f.region else { f.region with flags := 0, length :=
      length } := by
  unfold Space.splitRegion at h
  split_ifs at h with hsmall hfull
  · simp only [Prod.mk.injEq] at h
    rw [if_pos hsmall, h.2.1]
  · simp at h
  · simp only [Prod.mk.injEq] at h
    rw [if_neg hsmall, ← h.2.1]

/-! ### Modes of the pages of a call -/

/-- A call of `mm_map_direct`, with a physical address, or of `mm_map`. -/
structure MapCall where
  direct : Option Nat
  length : Nat
  flags : Nat

namespace MapCall

variable (call : MapCall) (s : Space)

def run : Space × Except Int Nat :=
  match call.direct with
  | none => s.mmMap call.length call.flags
  | some phys => s.mmMapDirect phys call.length call.flags

def op : MapOp :=
  match call.direct with
  | none => .map call.length call.flags
  | some phys => .mapDirect phys call.length call.flags

theorem run_op : s.run call.op = ((call.run s).1, (call.run s).2.isOk) := by
  rcases call with ⟨_ | _, _, _⟩ <;> rfl

/-- The region that the call takes, as it is when it has been cut to size. -/
def target : Option Region :=
  (findFreeRegion s.regions (pageAlign call.length)).map fun f =>
    if f.region.length - pageAlign call.length < PAGE_SIZE then f.region
    else { f.region with flags := 0, length := pageAlign call.length }

def written (r : Region) : Region :=
  match call.direct with
  | none => { r with flags := call.flags }
  | some phys => Space.directRegion r phys call.flags

/-- The pages that the call enters: `mm_map` does it before it writes the record, `mm_map_direct` after. -/
def entered (m : PageMap) (r : Region) : PageMap × Bool :=
  match call.direct with
  | none => allocateRegion m r
  | some _ => mapRegion m (call.written r)

variable {call s} {s' : Space} {f g : Place} {m : PageMap} {r : Region}

theorem written_addr : (call.written r).addr = r.addr := by
  rcases call with ⟨_ | _, _, _⟩ <;> rfl

theorem written_length : (call.written r).length = r.length := by
  rcases call with ⟨_ | _, _, _⟩ <;> rfl

theorem written_free : has (call.written r).flags MAP_FREE = has call.flags MAP_FREE := by
  rcases call with ⟨_ | _, _, _⟩
  · rfl
  · exact has_or_direct (by decide)

theorem run_none (hf : findFreeRegion s.regions (pageAlign call.length) = none) :
    call.run s = (s, .error (-ENOMEM)) := by
  rcases call with ⟨_ | _, _, _⟩ <;> simp [run, Space.mmMap, Space.mmMapDirect, hf]

section
variable (hf : findFreeRegion s.regions (pageAlign call.length) = some f)
include hf

theorem run_full (hc : s.splitRegion f (pageAlign call.length) = (s', g, false)) :
    call.run s = (s', .error (-ENOMEM)) := by
  rcases call with ⟨_ | _, _, _⟩ <;> simp [run, Space.mmMap, Space.mmMapDirect, hf, hc]

theorem run_entered {ok : Bool} (hc : s.splitRegion f (pageAlign call.length) = (s', g, true))
    (ha : call.entered s'.pages g.region = (m, ok)) :
    call.run s = (if ok || call.direct.isSome then (s'.withPages m).write g (call.written g.region) else s'.withPages m,
      if ok then .ok g.region.addr else .error (-1)) := by
  rcases call with ⟨_ | _, _, _⟩ <;> simp only [entered, written, Space.directRegion] at ha
  · cases ok <;> simp [run, Space.mmMap, hf, hc, ha, written]
  · cases ok <;> simp [run, Space.mmMapDirect, hf, hc, ha, Space.write, Space.withPages, written, Space.directRegion]

theorem target_eq (hc : s.splitRegion f (pageAlign call.length) = (s', g, true)) : call.target s = some g.region := by
  rw [target, hf, Option.map_some, Space.splitRegion_region hc]

end

end MapCall

def PageMap.Carries (m : PageMap) (r : Region) (flags : Nat) : Prop :=
  ∀ k < Process.pagesIn r.length, ∃ p, m.page (r.virt (k * PAGE_SIZE)) = some p ∧ p.Obeys flags

def SameModes (flags flags' : Nat) : Prop :=
  cachingOf flags = cachingOf flags' ∧ has flags MAP_READONLY = has flags' MAP_READONLY ∧
    has flags MAP_EXEC = has flags' MAP_EXEC

instance (flags flags' : Nat) : Decidable (SameModes flags flags') := inferInstanceAs (Decidable (_ ∧ _ ∧ _))

theorem sameModes_direct (flags : Nat) : SameModes (flags ||| MAP_DIRECT) flags := by
  have hbit := @has_or_direct flags
  refine ⟨?_, hbit (by decide), hbit (by decide)⟩
  simp only [cachingOf, hbit (by decide : MAP_DIRECT &&& MAP_UC = 0), hbit (by decide : MAP_DIRECT &&& MAP_WC = 0)]

theorem Page.Obeys.iff_same {p : Page} (h : p.Obeys flags) :
    p.Obeys flags' ↔ SameModes flags flags' := by
  obtain ⟨hc, hw, hx⟩ := h
  simp [Page.Obeys, SameModes, hc, hw, hx]

theorem pagesIn_eq_zero {n : Nat} : Process.pagesIn n = 0 ↔ n = 0 := by
  unfold Process.pagesIn PAGE_SIZE
  omega

theorem PageMap.Carries.iff_same (h : m.Carries r flags) :
    m.Carries r flags' ↔ r.length = 0 ∨ SameModes flags flags' := by
  constructor
  · intro h'
    rw [← pagesIn_eq_zero, or_iff_not_imp_left]
    intro hne
    obtain ⟨p, hp, hold⟩ := h 0 (Nat.pos_of_ne_zero hne)
    obtain ⟨q, hq, hnew⟩ := h' 0 (Nat.pos_of_ne_zero hne)
    obtain rfl : p = q := Option.some.inj (hp.symm.trans hq)
    exact hold.iff_same.mp hnew
  · intro hsame k hk
    obtain ⟨p, hp, hold⟩ := h k hk
    have hne : r.length ≠ 0 := fun hzero => by rw [pagesIn_eq_zero.mpr hzero] at hk; omega
    exact ⟨p, hp, hold.iff_same.mpr (hsame.resolve_left hne)⟩

theorem enterLoop_carries {enter : PageMap → Nat → Nat → PageMap × Bool}
    (he : Enters enter) (h : enterLoop enter r (Process.pagesIn r.length) 0 m = (m', true)) : m'.Carries r r.flags := by
  intro k hk
  have hpage := enterLoop_obeys he (by rw [h]) k hk
  rwa [h, Nat.zero_add] at hpage

theorem MapCall.entered_carries {call : MapCall} (h : call.entered m r = (m', true)) :
    m'.Carries r call.flags ↔ call.direct.isSome ∨ r.length = 0 ∨ SameModes r.flags call.flags := by
  rcases call with ⟨_ | phys, _, flags⟩
  · simpa using (enterLoop_carries enters_alloc h).iff_same
  · -- The record has its new flags before the first page is mapped.
    have hcarries := (enterLoop_carries (enters_map phys) h).iff_same.mpr (.inr (sameModes_direct flags))
    exact iff_of_true hcarries (.inl rfl)

/-- Each page of the region has the modes that the flags of the call ask for, exactly if the call is `mm_map_direct`,
there are no pages, or the flags that the region had ask for the same. -/
theorem mapped_modes_iff (s : Space) (call : MapCall) (virt : Nat) (h : (call.run s).2 = .ok virt) :
    ∃ r, call.target s = some r ∧ r.addr = virt ∧ call.written r ∈ (call.run s).1.regions ∧
      ((call.run s).1.pages.Carries r call.flags ↔
        call.direct.isSome ∨ r.length = 0 ∨ SameModes r.flags call.flags) := by
  cases hf : findFreeRegion s.regions (pageAlign call.length) with
  | none => rw [MapCall.run_none hf] at h; cases h
  | some f =>
    rcases hc : s.splitRegion f (pageAlign call.length) with ⟨s', g, ok⟩
    cases ok with
    | false => rw [MapCall.run_full hf hc] at h; cases h
    | true =>
      rcases ha : call.entered s'.pages g.region with ⟨m, ok⟩
      rw [MapCall.run_entered hf hc ha] at h ⊢
      cases ok with
      | false => cases h
      | true => exact ⟨g.region, MapCall.target_eq hf hc, Except.ok.inj h, by simp [Place.all],
        MapCall.entered_carries ha⟩

def freshSpace : Space :=
  .mmInit 0x200000000000 0x600000000000 ⟨fun _ => none, fun n => some (n * PAGE_SIZE), 0⟩ fun _ => true

theorem mapped_modes_stack : ∃ r, (⟨none, 4096, MAP_STACK⟩ : MapCall).target freshSpace = some r ∧
    ((⟨none, 4096, MAP_STACK⟩ : MapCall).run freshSpace).1.pages.Carries r MAP_STACK := by
  have hok : ((⟨none, 4096, MAP_STACK⟩ : MapCall).run freshSpace).2 = .ok 0x200000000000 := by decide +kernel
  have htarget : (⟨none, 4096, MAP_STACK⟩ : MapCall).target freshSpace = some ⟨0, 0x200000000000, 0, 4096⟩ := by
    decide +kernel
  obtain ⟨r, hr, -, -, hiff⟩ := mapped_modes_iff freshSpace ⟨none, 4096, MAP_STACK⟩ _ hok
  obtain rfl := Option.some.inj (htarget.symm.trans hr)
  exact ⟨_, hr, hiff.mpr (.inr (.inr (by decide)))⟩

/-- `mm_map` for an executable page that can not be written: the page can be written and not executed. -/
theorem mapped_modes_lost :
    ((⟨none, 4096, MAP_EXEC ||| MAP_READONLY⟩ : MapCall).run freshSpace).2 = .ok 0x200000000000 ∧
      ((⟨none, 4096, MAP_EXEC ||| MAP_READONLY⟩ : MapCall).run freshSpace).1.pages.page 0x200000000000 =
        some ⟨0, true, PAT_WB, true, false⟩ ∧
      ¬ (⟨0, true, PAT_WB, true, false⟩ : Page).Obeys (MAP_EXEC ||| MAP_READONLY) := by
  refine ⟨by decide +kernel, by decide +kernel, ?_⟩
  rintro ⟨-, hwrite, -⟩
  exact absurd hwrite (by decide)

theorem findFreeLoop_spec {best : Option Place}
    (hmap : before ++ after = map)
    (hbest : ∀ b, best = some b → b.all = map ∧ has b.region.flags MAP_FREE ∧ length ≤ b.region.length)
    (h : findFreeLoop length before after best = some f) :
    f.all = map ∧ has f.region.flags MAP_FREE ∧ length ≤ f.region.length := by
  induction after generalizing before best with
  | nil => exact hbest f h
  | cons item after ih =>
    refine ih (by simpa using hmap) ?_ h
    intro b hb
    split_ifs at hb with hfree hsmall
    · exact hbest b hb
    · exact hbest b hb
    · have hitem : ∀ p : Place, some ⟨before, item, after⟩ = some p →
          p.all = map ∧ has p.region.flags MAP_FREE ∧ length ≤ p.region.length := by
        rintro p ⟨⟩
        exact ⟨hmap, by simpa using hfree, by simpa using hsmall⟩
      cases hold : best with
      | none => exact hitem b (by simpa [hold] using hb)
      | some p =>
        rw [hold] at hb
        dsimp only at hb
        split_ifs at hb with hless
        · exact hitem b hb
        · exact hbest b (hold.trans hb)

theorem findFreeRegion_spec (h : findFreeRegion map length = some f) :
    f.all = map ∧ has f.region.flags MAP_FREE ∧ length ≤ f.region.length :=
  findFreeLoop_spec rfl (by simp) h

theorem findRegionLoop_spec {addr : Nat}
    (h : findRegionLoop addr before after = some f) :
    f.all = before ++ after ∧ f.region.addr ≤ addr ∧ addr < (f.region.addr + f.region.length) % 2 ^ 64 := by
  induction after generalizing before with
  | nil => cases h
  | cons item after ih =>
    unfold findRegionLoop at h
    split_ifs at h with hin
    · obtain rfl := Option.some.inj h
      exact ⟨rfl, hin⟩
    · have hrest := ih h
      rwa [List.append_assoc] at hrest

namespace Region

variable {r : Region} {m m' : PageMap} {a : Nat} {offset : Nat}

def Page (r : Region) (a : Nat) : Prop := PAGE_SIZE ∣ a ∧ r.addr ≤ a ∧ a < r.addr + r.length

/-- The region is marked free exactly if none of its pages is mapped. -/
def Marked (m : PageMap) (r : Region) : Prop :=
  has r.flags MAP_FREE ↔ ∀ a, r.Page a → m.page a = none

structure Whole (r : Region) : Prop where
  addr : PAGE_SIZE ∣ r.addr
  length : PAGE_SIZE ∣ r.length
  bound : r.addr + r.length < 2 ^ 64

structure Sound (m : PageMap) (r : Region) : Prop extends r.Whole where
  free : has r.flags MAP_FREE → (r.flags = MAP_FREE ∨ r.length = 0) ∧ ∀ a, r.Page a → m.page a = none
  used : ¬ has r.flags MAP_FREE → r.length ≠ 0 ∧ ∀ a, r.Page a → (m.page a).isSome

theorem virt_eq (h : r.addr + offset < 2 ^ 64) : r.virt offset = r.addr + offset := Nat.mod_eq_of_lt h

theorem virt_ne {k n : Nat} (hk : k < n) (hb : r.addr + (offset + (n + 1) * PAGE_SIZE) ≤ 2 ^ 64) :
    r.virt (offset + PAGE_SIZE + k * PAGE_SIZE) ≠ r.virt offset := by
  have hmul := Nat.mul_lt_mul_of_pos_right hk (by decide : 0 < PAGE_SIZE)
  rw [Nat.succ_mul] at hb
  rw [virt_eq (by omega), virt_eq (by unfold PAGE_SIZE at *; omega)]
  unfold PAGE_SIZE
  omega

theorem Whole.page_iff (h : r.Whole) : r.Page a ↔ ∃ k < Process.pagesIn r.length, a = r.virt (k * PAGE_SIZE) := by
  have hpages := Process.pagesIn_mul h.length
  have hbound := h.bound
  have hlt : ∀ k < Process.pagesIn r.length, k * PAGE_SIZE < r.length := by
    intro k hk
    rw [← hpages]
    exact Nat.mul_lt_mul_of_pos_right hk (by decide)
  constructor
  · rintro ⟨⟨k, rfl⟩, hle, hend⟩
    obtain ⟨j, hj⟩ := h.addr
    refine ⟨k - j, ?_, ?_⟩ <;> unfold Region.virt Process.pagesIn PAGE_SIZE at * <;> omega
  · rintro ⟨k, hk, rfl⟩
    have hk' := hlt k hk
    rw [virt_eq (by omega)]
    exact ⟨Nat.dvd_add h.addr (Nat.dvd_mul_left ..), Nat.le_add_right .., by omega⟩

theorem Whole.page_addr (h : r.Whole) (hne : r.length ≠ 0) : r.Page r.addr :=
  ⟨h.addr, Nat.le_refl _, by omega⟩

theorem Sound.marked (h : r.Sound m) : r.Marked m := by
  constructor
  · exact fun hfree => (h.free hfree).2
  · intro hnone
    by_contra hused
    obtain ⟨hne, hall⟩ := h.used hused
    have haddr := h.toWhole.page_addr hne
    simpa [hnone _ haddr] using hall _ haddr

theorem Sound.congr (h : r.Sound m) (heq : ∀ a, r.Page a → m'.page a = m.page a) : r.Sound m' where
  toWhole := h.toWhole
  free hfree := ⟨(h.free hfree).1, fun a ha => (heq a ha).trans ((h.free hfree).2 a ha)⟩
  used hused := ⟨(h.used hused).1, fun a ha => by rw [heq a ha]; exact (h.used hused).2 a ha⟩

end Region

section Pages

variable {enter : PageMap → Nat → Nat → PageMap × Bool} {r : Region} {n offset : Nat} {m : PageMap} {a : Nat}

theorem enterLoop_ok (he : Enters enter) (hb : r.addr + (offset + n * PAGE_SIZE) ≤ 2 ^ 64)
    (hfree : ∀ k < n, m.page (r.virt (offset + k * PAGE_SIZE)) = none) :
    (enterLoop enter r n offset m).2 = true ↔ ∀ i < n, m.grants (m.asked + i) ≠ none := by
  induction n generalizing offset m with
  | zero => simp [enterLoop]
  | succ n ih =>
    rw [Nat.forall_lt_succ_left] at hfree ⊢
    have hv : m.page (r.virt offset) = none := by simpa using hfree.1
    by_cases hg : m.grants m.asked = none
    · simp [enterLoop_refused he hv hg, hg]
    obtain ⟨p, -, heq⟩ := enterLoop_entered (n := n) he hv hg
    rw [heq, ih (by rwa [next_page])]
    · simp [hg, Nat.add_assoc, Nat.add_comm 1]
    · intro k hk
      rw [PageMap.set_page, if_neg (Region.virt_ne hk hb), PageMap.ask_page, next_page]
      exact hfree.2 k hk

structure Entered (r : Region) (m : PageMap) (e : PageMap × Bool) : Prop where
  other : ∀ a, ¬ r.Page a → e.1.page a = m.page a
  ok : e.2 = true ↔ ∀ i < Process.pagesIn r.length, m.grants (m.asked + i) ≠ none
  mapped : e.2 = true → ∀ a, r.Page a → (e.1.page a).isSome
  refused : r.length ≠ 0 → m.grants m.asked = none → e = (m.ask, false)
  first : r.length ≠ 0 → m.grants m.asked ≠ none → (e.1.page r.addr).isSome

theorem Region.Whole.entered (h : r.Whole) (he : Enters enter) (hfree : ∀ a, r.Page a → m.page a = none) :
    Entered r m (enterLoop enter r (Process.pagesIn r.length) 0 m) := by
  have hpages := Process.pagesIn_mul h.length
  have hbound := h.bound
  have hpage : ∀ k < Process.pagesIn r.length, r.Page (r.virt (k * PAGE_SIZE)) :=
    fun k hk => h.page_iff.mpr ⟨k, hk, rfl⟩
  have hstart : r.virt 0 = r.addr := Region.virt_eq (by omega)
  refine ⟨?_, ?_, ?_, ?_, ?_⟩
  · intro a ha
    refine enterLoop_other he fun k hk hk' => ha ?_
    rw [hk', Nat.zero_add]
    exact hpage k hk
  · refine enterLoop_ok he (by omega) fun k hk => ?_
    rw [Nat.zero_add]
    exact hfree _ (hpage k hk)
  · intro hok a ha
    obtain ⟨k, hk, rfl⟩ := h.page_iff.mp ha
    obtain ⟨p, hp, -⟩ := enterLoop_obeys he hok k hk
    rw [Nat.zero_add] at hp
    simp [hp]
  all_goals
    intro hne hg
    have hv : m.page (r.virt 0) = none := by rw [hstart]; exact hfree _ (h.page_addr hne)
    obtain ⟨n, hn⟩ := Nat.exists_eq_succ_of_ne_zero (pagesIn_eq_zero.not.mpr hne)
    rw [hn]
  · exact enterLoop_refused he hv hg
  · obtain ⟨p, -, heq⟩ := enterLoop_entered (n := n) he hv hg
    rw [heq, enterLoop_keeps he (p := p)]
    · rfl
    · simp [hstart]

theorem Region.Whole.entered_call (h : r.Whole) (call : MapCall) (hfree : ∀ a, r.Page a → m.page a = none) :
    Entered r m (call.entered m r) := by
  rcases call with ⟨_ | phys, _, flags⟩
  · exact h.entered enters_alloc hfree
  · have hwhole : (Space.directRegion r phys flags).Whole := ⟨h.addr, h.length, h.bound⟩
    have he := hwhole.entered (enters_map phys) hfree
    exact ⟨he.other, he.ok, he.mapped, he.refused, he.first⟩

theorem unmapLoop_mapped (h : (m.page (r.virt offset)).isSome) :
    unmapLoop r (n + 1) offset m = unmapLoop r n (offset + PAGE_SIZE) (m.set (r.virt offset) none) := by
  simp [unmapLoop, PageMap.vmmFreePage_isSome h]

theorem unmapLoop_unmapped (h : m.page (r.virt offset) = none) : unmapLoop r (n + 1) offset m = (m, false) := by
  simp [unmapLoop, PageMap.vmmFreePage, h]

theorem unmapLoop_other (h : ∀ k < n, a ≠ r.virt (offset + k * PAGE_SIZE)) :
    (unmapLoop r n offset m).1.page a = m.page a := by
  induction n generalizing offset m with
  | zero => rfl
  | succ n ih =>
    by_cases hv : (m.page (r.virt offset)).isSome
    · rw [Nat.forall_lt_succ_left] at h
      have hrest : ∀ k < n, a ≠ r.virt (offset + PAGE_SIZE + k * PAGE_SIZE) :=
        fun k hk => next_page offset k ▸ h.2 k hk
      have hne : a ≠ r.virt offset := by simpa using h.1
      rw [unmapLoop_mapped hv, ih hrest, PageMap.set_page, if_neg hne]
    · rw [unmapLoop_unmapped (Option.not_isSome_iff_eq_none.mp hv)]

theorem unmapLoop_all (hb : r.addr + (offset + n * PAGE_SIZE) ≤ 2 ^ 64)
    (hmapped : ∀ k < n, (m.page (r.virt (offset + k * PAGE_SIZE))).isSome) :
    (unmapLoop r n offset m).2 = true ∧
      ∀ k < n, (unmapLoop r n offset m).1.page (r.virt (offset + k * PAGE_SIZE)) = none := by
  induction n generalizing offset m with
  | zero => exact ⟨rfl, fun k hk => by omega⟩
  | succ n ih =>
    rw [Nat.forall_lt_succ_left] at hmapped ⊢
    have hv : (m.page (r.virt offset)).isSome := by simpa using hmapped.1
    have hapart : ∀ k < n, r.virt (offset + PAGE_SIZE + k * PAGE_SIZE) ≠ r.virt offset :=
      fun k hk => Region.virt_ne hk hb
    have hb' : r.addr + (offset + PAGE_SIZE + n * PAGE_SIZE) ≤ 2 ^ 64 := by rwa [next_page]
    have hnext : ∀ k < n, ((m.set (r.virt offset) none).page (r.virt (offset + PAGE_SIZE + k * PAGE_SIZE))).isSome := by
      intro k hk
      rw [PageMap.set_page, if_neg (hapart k hk), next_page]
      exact hmapped.2 k hk
    have hrest := ih hb' hnext
    rw [unmapLoop_mapped hv]
    refine ⟨hrest.1, ?_, fun k hk => next_page offset k ▸ hrest.2 k hk⟩
    rw [unmapLoop_other fun k hk => ?_]
    · simp
    · simpa using (hapart k hk).symm

end Pages

theorem dvd_pageAlign (a : Nat) : PAGE_SIZE ∣ pageAlign a := Nat.dvd_mul_left ..

namespace Space

variable {lo hi len : Nat} {s s' : Space} {f g : Place} {m : PageMap} {r : Region} {op : MapOp} {call : MapCall}
  {addr length : Nat} {heap : Nat → Bool}

structure Inv (lo hi : Nat) (s : Space) : Prop where
  tiles : Tiles Region.addr Region.length lo s.regions hi
  sound : ∀ r ∈ s.regions, r.Sound s.pages
  running : s.fault = false

/-- The regions while a call works on one of them, that has no mapped page. -/
structure Open (lo hi : Nat) (s : Space) (f : Place) : Prop where
  regions : s.regions = f.all
  tiles : Tiles Region.addr Region.length lo f.all hi
  whole : f.region.Whole
  others : ∀ r, r ∈ f.before ∨ r ∈ f.after → r.Sound s.pages
  free : ∀ a, f.region.Page a → s.pages.page a = none
  running : s.fault = false

theorem Inv.sound_at (h : s.Inv lo hi) (hf : f.all = s.regions) : f.region.Sound s.pages :=
  h.sound _ (by simp [← hf, Place.all])

theorem Inv.sound_others (h : s.Inv lo hi) (hf : f.all = s.regions) (hr : r ∈ f.before ∨ r ∈ f.after) :
    r.Sound s.pages := by
  refine h.sound r ?_
  rw [← hf, Place.all, List.mem_append, List.mem_cons]
  exact hr.imp_right .inr

theorem Inv.open (h : s.Inv lo hi) (hf : f.all = s.regions) (hfree : has f.region.flags MAP_FREE) : s.Open lo hi f :=
  ⟨hf.symm, hf ▸ h.tiles, (h.sound_at hf).toWhole, fun _ hr => h.sound_others hf hr,
    ((h.sound_at hf).free hfree).2, h.running⟩

theorem tiles_close (ht : Tiles Region.addr Region.length lo f.all hi)
    (hothers : ∀ r, r ∈ f.before ∨ r ∈ f.after → r.Sound s.pages) (haddr : r.addr = f.region.addr)
    (hlen : r.length = f.region.length) (hm : ∀ a, ¬ f.region.Page a → m.page a = s.pages.page a)
    (hr : r.Sound m) (hrun : s.fault = false) : ((s.withPages m).write f r).Inv lo hi := by
  refine ⟨ht.exchange haddr hlen, fun x hx => ?_, hrun⟩
  rw [write_pages, withPages_pages]
  rw [write_regions, Place.all, List.mem_append, List.mem_cons] at hx
  have hother : x ∈ f.before ∨ x ∈ f.after → x.Sound m := by
    intro hx
    refine (hothers x hx).congr fun a ha => hm a fun ha' => ?_
    have hapart := ht.apart hx
    obtain ⟨-, h1, h2⟩ := ha
    obtain ⟨-, h3, h4⟩ := ha'
    omega
  rcases hx with hx | rfl | hx
  · exact hother (.inl hx)
  · exact hr
  · exact hother (.inr hx)

theorem Open.filled (h : s.Open lo hi f) (haddr : r.addr = f.region.addr) (hlen : r.length = f.region.length)
    (hm : ∀ a, ¬ f.region.Page a → m.page a = s.pages.page a) (hmapped : ∀ a, f.region.Page a → (m.page a).isSome) :
    ((has r.flags MAP_FREE ↔ r.length = 0) → ((s.withPages m).write f r).Inv lo hi) ∧
      (r.Marked m → (has r.flags MAP_FREE ↔ r.length = 0)) := by
  have hwhole : r.Whole := ⟨haddr ▸ h.whole.addr, hlen ▸ h.whole.length, by rw [haddr, hlen]; exact h.whole.bound⟩
  have hpage : ∀ a, r.Page a ↔ f.region.Page a := fun a => by simp [Region.Page, haddr, hlen]
  constructor
  · intro hiff
    refine tiles_close h.tiles h.others haddr hlen hm
      ⟨hwhole, fun hfree => ⟨.inr (hiff.mp hfree), ?_⟩, fun hused => ?_⟩ h.running
    · rintro a ⟨-, h1, h2⟩
      have hzero := hiff.mp hfree
      omega
    · exact ⟨fun hzero => hused (hiff.mpr hzero), fun a ha => hmapped a ((hpage a).mp ha)⟩
  · intro hmarked
    refine Iff.trans hmarked ⟨?_, ?_⟩
    · intro hnone
      by_contra hne
      have haddr' := hwhole.page_addr hne
      simpa [hnone _ haddr'] using hmapped _ ((hpage _).mp haddr')
    · rintro hzero a ⟨-, h1, h2⟩
      omega

def NoRecord (s : Space) (f : Place) (len : Nat) : Prop :=
  ¬ f.region.length - len < PAGE_SIZE ∧ s.heap s.taken = false

/-- A region of the given length at a place, from one that is free. -/
structure Reserved (lo hi : Nat) (s : Space) (f : Place) (len : Nat) (s' : Space) (g : Place) : Prop where
  opened : s'.Open lo hi g
  pages : s'.pages = s.pages
  length : g.region.length = len
  record : ¬ s.NoRecord f len
  kept : f.region.length - len < PAGE_SIZE → s' = s ∧ g = f
  split : ¬ f.region.length - len < PAGE_SIZE → g.all.length ≠ s.regions.length

/-- The place of a region that `split_region` has cut off, at its start, from the one at a place. -/
def cutOff (f : Place) (len : Nat) : Place :=
  ⟨f.before, { f.region with flags := 0, length := len },
    ⟨MAP_FREE, (f.region.addr + len) % 2 ^ 64, 0, f.region.length - len⟩ :: f.after⟩

theorem Open.cutOff (h : s.Open lo hi f) (hlen : PAGE_SIZE ∣ len) (hle : len ≤ f.region.length) {taken : Nat} :
    { s with regions := (cutOff f len).all, taken := taken }.Open lo hi (cutOff f len) := by
  have hbound := h.whole.bound
  have hrest : (f.region.addr + len) % 2 ^ 64 = f.region.addr + len := Nat.mod_eq_of_lt (by omega)
  refine ⟨rfl, ?_, ?_, ?_, ?_, h.running⟩
  · exact h.tiles.cut rfl hrest (Nat.add_sub_cancel' hle)
  · exact ⟨h.whole.addr, hlen, by simp only [Space.cutOff]; omega⟩
  · rintro r (hr | hr)
    · exact h.others r (.inl hr)
    rcases List.mem_cons.mp hr with rfl | hr
    · have hwhole : Region.Whole ⟨MAP_FREE, (f.region.addr + len) % 2 ^ 64, 0, f.region.length - len⟩ := by
        rw [hrest]
        exact ⟨Nat.dvd_add h.whole.addr hlen, Nat.dvd_sub h.whole.length hlen, by dsimp only; omega⟩
      refine ⟨hwhole, fun _ => ⟨.inl rfl, ?_⟩, fun hused => absurd (by decide : has MAP_FREE MAP_FREE) hused⟩
      rintro a ⟨hdvd, h1, h2⟩
      rw [hrest] at h1 h2
      dsimp only at h1 h2
      exact h.free a ⟨hdvd, by omega, by omega⟩
    · exact h.others r (.inr hr)
  · rintro a ⟨hdvd, h1, h2⟩
    exact h.free a ⟨hdvd, h1, by simp only [Space.cutOff] at h1 h2; omega⟩

theorem Inv.reserve (h : s.Inv lo hi) (hf : findFreeRegion s.regions len = some f) (hlen : PAGE_SIZE ∣ len) :
    (s.NoRecord f len ∧ s.splitRegion f len = ({ s with taken := s.taken + 1, fault := true }, f, false)) ∨
      ∃ s' g, s.splitRegion f len = (s', g, true) ∧ Reserved lo hi s f len s' g := by
  obtain ⟨hall, hfree, hle⟩ := findFreeRegion_spec hf
  have hopen := h.open hall hfree
  unfold splitRegion
  by_cases hsmall : f.region.length - len < PAGE_SIZE
  · have hsame : f.region.length = len := by
      have hdvd := Nat.dvd_sub hopen.whole.length hlen
      have hzero := Nat.eq_zero_of_dvd_of_lt hdvd hsmall
      omega
    rw [if_pos hsmall]
    exact .inr ⟨s, f, rfl, hopen, rfl, hsame, fun hno => hno.1 hsmall, fun _ => ⟨rfl, rfl⟩,
      fun hno => absurd hsmall hno⟩
  rw [if_neg hsmall]
  cases hheap : s.heap s.taken with
  | false => exact .inl ⟨⟨hsmall, hheap⟩, by simp⟩
  | true =>
    refine .inr ⟨{ s with regions := (Space.cutOff f len).all, taken := s.taken + 1 }, Space.cutOff f len, ?_,
      hopen.cutOff hlen hle, rfl, rfl, ?_, ?_, ?_⟩
    · simp only [Bool.not_true, Bool.false_eq_true, if_false]
      rfl
    · intro hno
      rw [hno.2] at hheap
      cases hheap
    · exact fun hyes => absurd hyes hsmall
    · intro _ hcount
      rw [← hall] at hcount
      simp [Space.cutOff, Place.all] at hcount

/-- A call returns, keeps the tiling and the marks, and changes nothing when it fails. -/
def Right (lo hi : Nat) (s : Space) (op : MapOp) : Prop :=
  Tiles Region.addr Region.length lo (s.run op).1.regions hi ∧
    (∀ r ∈ (s.run op).1.regions, r.Marked (s.run op).1.pages) ∧
    ((s.run op).2 = false → (s.run op).1.regions = s.regions ∧ (s.run op).1.pages.page = s.pages.page) ∧
    (s.run op).1.fault = false

/-- All pages of a length are granted, and the flags mark a region of this length as they should. -/
def Granted (s : Space) (len flags : Nat) : Prop :=
  (∀ i < Process.pagesIn len, s.pages.grants (s.pages.asked + i) ≠ none) ∧ (has flags MAP_FREE ↔ len = 0)

/-- A call gets all it asks for; or it fails before it has changed anything. -/
def Complete (s : Space) : MapOp → Prop
  | .map length flags => ∀ f, findFreeRegion s.regions (pageAlign length) = some f →
      ¬ s.NoRecord f (pageAlign length) ∧ (s.Granted (pageAlign length) flags ∨
        f.region.length - pageAlign length < PAGE_SIZE ∧ pageAlign length ≠ 0 ∧ s.pages.grants s.pages.asked = none)
  | .mapDirect _ length flags => ∀ f, findFreeRegion s.regions (pageAlign length) = some f →
      ¬ s.NoRecord f (pageAlign length) ∧ s.Granted (pageAlign length) flags
  | .unmap _ => True

instance (f : Place) (len : Nat) : Decidable (s.NoRecord f len) := inferInstanceAs (Decidable (_ ∧ _))

instance (len flags : Nat) : Decidable (s.Granted len flags) := inferInstanceAs (Decidable (_ ∧ _))

instance Complete.decidable : (op : MapOp) → Decidable (s.Complete op)
  | .map length flags => inferInstanceAs (Decidable (∀ f ∈ findFreeRegion s.regions (pageAlign length),
      ¬ s.NoRecord f (pageAlign length) ∧ (s.Granted (pageAlign length) flags ∨
        f.region.length - pageAlign length < PAGE_SIZE ∧ pageAlign length ≠ 0 ∧ s.pages.grants s.pages.asked = none)))
  | .mapDirect _ length flags => inferInstanceAs (Decidable (∀ f ∈ findFreeRegion s.regions (pageAlign length),
      ¬ s.NoRecord f (pageAlign length) ∧ s.Granted (pageAlign length) flags))
  | .unmap _ => inferInstanceAs (Decidable True)

/-- A step of a call: it keeps the invariant if it is complete, and it is right exactly then. -/
def Exact (lo hi : Nat) (s : Space) (op : MapOp) : Prop :=
  (s.Complete op → (s.run op).1.Inv lo hi) ∧ (s.Right lo hi op ↔ s.Complete op)

theorem Inv.exact_same (h : s.Inv lo hi) (hc : s.Complete op) (hregions : (s.run op).1.regions = s.regions)
    (hpages : (s.run op).1.pages.page = s.pages.page) (hrun : (s.run op).1.fault = s.fault) : s.Exact lo hi op := by
  have hinv : (s.run op).1.Inv lo hi :=
    ⟨hregions ▸ h.tiles, fun r hr => (h.sound r (hregions ▸ hr)).congr fun a _ => congrFun hpages a, hrun ▸ h.running⟩
  exact ⟨fun _ => hinv, iff_of_true
    ⟨hinv.tiles, fun r hr => (hinv.sound r hr).marked, fun _ => ⟨hregions, hpages⟩, hinv.running⟩ hc⟩

theorem exact_ok (hok : (s.run op).2 = true) (hinv : s.Complete op → (s.run op).1.Inv lo hi)
    (hmark : (∀ r ∈ (s.run op).1.regions, r.Marked (s.run op).1.pages) → s.Complete op) : s.Exact lo hi op := by
  refine ⟨hinv, fun hright => hmark hright.2.1, fun hc => ?_⟩
  have hinv := hinv hc
  refine ⟨hinv.tiles, fun r hr => (hinv.sound r hr).marked, fun hfail => ?_, hinv.running⟩
  rw [hok] at hfail
  cases hfail

theorem exact_bad (hbad : ¬ s.Complete op) (hfail : (s.run op).2 = false)
    (hchange : ¬ ((s.run op).1.regions = s.regions ∧ (s.run op).1.pages.page = s.pages.page)) : s.Exact lo hi op :=
  ⟨fun hc => absurd hc hbad, iff_of_false (fun hright => hchange (hright.2.2.1 hfail)) hbad⟩

theorem Reserved.exact_filled (hres : Reserved lo hi s f len s' g) (he : Entered g.region s.pages (m, true))
    (haddr : r.addr = g.region.addr) (hlen : r.length = g.region.length)
    (hrun : s.run op = ((s'.withPages m).write g r, true))
    (hc : s.Complete op ↔ (has r.flags MAP_FREE ↔ len = 0)) : s.Exact lo hi op := by
  have hother : ∀ a, ¬ g.region.Page a → m.page a = s'.pages.page a := by
    rw [hres.pages]
    exact he.other
  obtain ⟨hinv, hmark⟩ := hres.opened.filled haddr hlen hother (he.mapped rfl)
  rw [hlen, hres.length, ← hc] at hinv hmark
  refine exact_ok (by rw [hrun]) (by rw [hrun]; exact hinv) fun hall => ?_
  rw [hrun] at hall
  exact hmark (hall r (by simp [Place.all]))

theorem directRegion_flags (r : Region) (phys flags : Nat) : (directRegion r phys flags).flags ≠ MAP_FREE := by
  intro heq
  have hbit : has (flags ||| MAP_DIRECT) MAP_DIRECT = has MAP_FREE MAP_DIRECT := congrArg (has · MAP_DIRECT) heq
  simp [has, Nat.and_or_distrib_right, MAP_FREE, MAP_DIRECT] at hbit

theorem complete_none (hf : findFreeRegion s.regions (pageAlign call.length) = none) :
    s.Complete call.op := by
  rcases call with ⟨_ | _, _, _⟩ <;> intro f hf' <;> cases hf.symm.trans hf'

theorem complete_some (hf : findFreeRegion s.regions (pageAlign call.length) = some f) :
    s.Complete call.op ↔ ¬ s.NoRecord f (pageAlign call.length) ∧ (s.Granted (pageAlign call.length) call.flags ∨
      call.direct = none ∧ f.region.length - pageAlign call.length < PAGE_SIZE ∧ pageAlign call.length ≠ 0 ∧
        s.pages.grants s.pages.asked = none) := by
  rcases call with ⟨_ | _, _, _⟩ <;> simp [MapCall.op, Complete, hf]

theorem Inv.exact_call (h : s.Inv lo hi) (call : MapCall) : s.Exact lo hi call.op := by
  have hrun := call.run_op s
  cases hf : findFreeRegion s.regions (pageAlign call.length) with
  | none =>
    rw [MapCall.run_none hf] at hrun
    exact h.exact_same (complete_none hf) (by rw [hrun]) (by rw [hrun]) (by rw [hrun])
  | some f =>
    have hcomplete := complete_some hf
    rcases h.reserve hf (dvd_pageAlign _) with ⟨hno, hc⟩ | ⟨s', g, hc, hres⟩
    · rw [MapCall.run_full hf hc] at hrun
      refine ⟨fun hcomp => absurd hno (hcomplete.mp hcomp).1, iff_of_false (fun hright => ?_) fun hcomp =>
        (hcomplete.mp hcomp).1 hno⟩
      have hstop := hright.2.2.2
      rw [hrun] at hstop
      cases hstop
    have he := hres.opened.whole.entered_call call hres.opened.free
    rcases ha : call.entered s'.pages g.region with ⟨m, ok⟩
    rw [MapCall.run_entered hf hc ha] at hrun
    rw [ha, hres.pages] at he
    have hlen := hres.length
    have hall := he.ok
    rw [hlen] at hall
    cases ok with
    | true =>
      have hall := hall.mp rfl
      refine hres.exact_filled he MapCall.written_addr MapCall.written_length hrun (hcomplete.trans ?_)
      rw [MapCall.written_free]
      refine ⟨?_, fun hflags => ⟨hres.record, .inl ⟨hall, hflags⟩⟩⟩
      rintro ⟨-, hgranted | ⟨-, -, hne, hnone⟩⟩
      · exact hgranted.2
      · exact absurd hnone (hall 0 (Nat.pos_of_ne_zero (pagesIn_eq_zero.not.mpr hne)))
    | false =>
      have hfail := hall.not.mp (by simp)
      have hne : pageAlign call.length ≠ 0 := by
        intro hzero
        simp [hzero, pagesIn_eq_zero.mpr] at hfail
      by_cases hsame : call.direct = none ∧ f.region.length - pageAlign call.length < PAGE_SIZE ∧
        s.pages.grants s.pages.asked = none
      · obtain ⟨hd, hsmall, hnone⟩ := hsame
        obtain ⟨rfl, rfl⟩ := hres.kept hsmall
        obtain ⟨rfl, -⟩ := Prod.mk.inj (he.refused (by rwa [hlen]) hnone)
        rw [hd] at hrun
        exact h.exact_same (hcomplete.mpr ⟨hres.record, .inr ⟨hd, hsmall, hne, hnone⟩⟩) (by rw [hrun]; rfl)
          (by rw [hrun]; rfl) (by rw [hrun]; rfl)
      refine exact_bad (hcomplete.not.mpr ?_) (by rw [hrun]; rfl) ?_
      · rintro ⟨-, hgranted | ⟨hd, hsmall, -, hnone⟩⟩
        · exact hfail hgranted.1
        · exact hsame ⟨hd, hsmall, hnone⟩
      rw [hrun]
      rintro ⟨hregions, hpages⟩
      have hsmall : f.region.length - pageAlign call.length < PAGE_SIZE := by
        by_contra hno
        refine hres.split hno ?_
        rw [← hregions]
        cases call.direct <;> simp [Place.all, withPages, hres.opened.regions]
      obtain ⟨rfl, rfl⟩ := hres.kept hsmall
      cases hd : call.direct with
      | none =>
        -- The first page is mapped.
        have hpages : m.page = s'.pages.page := by simpa [hd] using hpages
        have hfirst := he.first (by rwa [hlen]) fun hnone => hsame ⟨hd, hsmall, hnone⟩
        have hbefore := hres.opened.free _ (hres.opened.whole.page_addr (by rwa [hlen]))
        rw [← hpages] at hbefore
        simp [hbefore] at hfirst
      | some phys =>
        -- The free region has been given the flags of the call.
        obtain ⟨hallg, hfree, -⟩ := findFreeRegion_spec hf
        have hold := (((h.sound_at hallg).free hfree).1).resolve_right (by rwa [hlen])
        rw [hd, ← hallg] at hregions
        have hsame : call.written g.region = g.region := by simpa [Place.all] using hregions
        rw [MapCall.written, hd] at hsame
        exact directRegion_flags g.region phys call.flags ((congrArg Region.flags hsame).trans hold)

theorem Inv.exact_unmap (h : s.Inv lo hi) (virt : Nat) : s.Exact lo hi (.unmap virt) := by
  have hrun : s.run (.unmap virt) = ((s.mmUnmap virt).1, (s.mmUnmap virt).2.isOk) := rfl
  cases hf : findRegion s.regions virt with
  | none =>
    simp only [mmUnmap, hf] at hrun
    exact h.exact_same trivial (by rw [hrun]) (by rw [hrun]) (by rw [hrun])
  | some f =>
    obtain ⟨hall, hle, hlt⟩ := findRegionLoop_spec hf
    have hsound := h.sound_at hall
    have hbound := hsound.bound
    have hpages := Process.pagesIn_mul hsound.length
    rw [Nat.mod_eq_of_lt hbound] at hlt
    have hne : f.region.length ≠ 0 := by omega
    have hstart : f.region.virt 0 = f.region.addr := Region.virt_eq (by omega)
    by_cases hfree : has f.region.flags MAP_FREE
    · -- The first page of a free region is not mapped.
      have hnone := (hsound.free hfree).2 _ (hsound.page_addr hne)
      have hloop : unmapRegion s.pages f.region = (s.pages, false) := by
        obtain ⟨n, hn⟩ := Nat.exists_eq_succ_of_ne_zero (pagesIn_eq_zero.not.mpr hne)
        rw [unmapRegion, hn]
        exact unmapLoop_unmapped (hstart ▸ hnone)
      simp only [mmUnmap, hf, hloop] at hrun
      exact h.exact_same trivial (by rw [hrun]; rfl) (by rw [hrun]; rfl) (by rw [hrun]; rfl)
    · obtain ⟨-, hmapped⟩ := hsound.used hfree
      have hpage : ∀ k < Process.pagesIn f.region.length, f.region.Page (f.region.virt (0 + k * PAGE_SIZE)) := by
        intro k hk
        rw [Nat.zero_add]
        exact hsound.page_iff.mpr ⟨k, hk, rfl⟩
      obtain ⟨hok, hgone⟩ := unmapLoop_all (by omega) fun k hk => hmapped _ (hpage k hk)
      have hrun' : s.run (.unmap virt) = ((s.withPages (unmapRegion s.pages f.region).1).write f
          { f.region with flags := MAP_FREE }, true) := by
        simp only [mmUnmap, hf, unmapRegion, hok] at hrun
        exact hrun
      have hinv : (s.run (.unmap virt)).1.Inv lo hi := by
        rw [hrun']
        refine tiles_close (hall ▸ h.tiles) (fun r hr => h.sound_others hall hr) rfl rfl ?_ ?_ h.running
        · intro a ha
          refine unmapLoop_other fun k hk hk' => ha ?_
          rw [hk']
          exact hpage k hk
        · refine ⟨⟨hsound.addr, hsound.length, hsound.bound⟩, fun _ => ⟨.inl rfl, fun a ha => ?_⟩, fun hused => ?_⟩
          · obtain ⟨k, hk, rfl⟩ := hsound.page_iff.mp ha
            have hk' := hgone k hk
            rwa [Nat.zero_add] at hk'
          · exact absurd (by decide : has MAP_FREE MAP_FREE) hused
      exact exact_ok (by rw [hrun']) (fun _ => hinv) fun _ => trivial

theorem Inv.exact (h : s.Inv lo hi) (op : MapOp) : s.Exact lo hi op := by
  cases op with
  | map length flags => exact h.exact_call ⟨none, length, flags⟩
  | mapDirect phys length flags => exact h.exact_call ⟨some phys, length, flags⟩
  | unmap virt => exact h.exact_unmap virt

theorem Inv.init (haddr : PAGE_SIZE ∣ addr) (hlength : PAGE_SIZE ∣ length)
    (hbound : addr + length < 2 ^ 64) (hfree : ∀ a, addr ≤ a → a < addr + length → m.page a = none) :
    (mmInit addr length m heap).Inv addr (addr + length) := by
  refine ⟨⟨rfl, rfl⟩, fun r hr => ?_, rfl⟩
  obtain rfl := List.mem_singleton.mp hr
  refine ⟨⟨haddr, hlength, hbound⟩, fun _ => ⟨.inl rfl, fun a ha => hfree a ha.2.1 ha.2.2⟩, fun hused => ?_⟩
  exact absurd (by decide : has MAP_FREE MAP_FREE) hused

/-- With memory running out anywhere: every call returns, the regions tile the range, those without a mapped page are
marked free, and a call that fails changes nothing, exactly if every call is complete. -/
theorem map_calls_iff {pages : PageMap} (haddr : PAGE_SIZE ∣ addr)
    (hlength : PAGE_SIZE ∣ length) (hbound : addr + length < 2 ^ 64)
    (hfree : ∀ a, addr ≤ a → a < addr + length → pages.page a = none) (ops : List MapOp) :
    Steps.Along (fun s op => (s.run op).1) (Right addr (addr + length)) (mmInit addr length pages heap) ops ↔
      Steps.Along (fun s op => (s.run op).1) Complete (mmInit addr length pages heap) ops :=
  Steps.Along.congr (P := fun _ _ => True) (fun _ op hI _ hc => (Inv.exact hI op).1 hc)
    (fun _ op hI _ => (Inv.exact hI op).2) (Inv.init haddr hlength hbound hfree)
      (Steps.Along.of_forall fun _ _ => trivial)

theorem map_calls_plain :
    Steps.Along (fun s op => (s.run op).1) (Right 0x200000000000 0x800000000000) freshSpace
      [.map 1 MAP_STACK, .mapDirect 0xB8000 8192 MAP_WC, .unmap 0x200000000000, .map (2 ^ 63) 0, .unmap 5] :=
  (map_calls_iff (by decide : PAGE_SIZE ∣ 0x200000000000) (by decide : PAGE_SIZE ∣ 0x600000000000) (by decide)
    (fun _ _ _ => rfl) _).mpr (by decide +kernel)

def tightSpace : Space :=
  .mmInit 0x200000000000 0x600000000000 ⟨fun _ => none, fun n => if n = 0 then some 0x1000 else none, 0⟩ fun _ => true

/-- Two pages are asked for and one is granted: the call fails, and leaves a region with one of its pages mapped. -/
theorem map_call_partial :
    (tightSpace.run (.map 8192 MAP_STACK)).2 = false ∧
      (tightSpace.run (.map 8192 MAP_STACK)).1.regions =
        [⟨0, 0x200000000000, 0, 8192⟩, ⟨MAP_FREE, 0x200000002000, 0, 0x5FFFFFFFE000⟩] ∧
      ((tightSpace.run (.map 8192 MAP_STACK)).1.pages.page 0x200000000000).isSome ∧
      ¬ tightSpace.Right 0x200000000000 0x800000000000 (.map 8192 MAP_STACK) := by
  have hfail : (tightSpace.run (.map 8192 MAP_STACK)).2 = false := by decide +kernel
  refine ⟨hfail, by decide +kernel, by decide +kernel, fun hright => ?_⟩
  exact absurd (hright.2.2.1 hfail).1 (by decide +kernel)

end Space

end Novino.Mem
