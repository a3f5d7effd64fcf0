import Novino.Pci.Msi
import Novino.Theorems.Vectors

/-! The vectors of a PCI device: a request takes as many as it says or none, and what it took can be given back. -/

namespace Novino.Pci

open X86

variable {apic : Nat → Nat} {s t : Irqs} {vecs : List Nat} {v n i m a b : Nat}

/-- The tables differ at most in where the interrupts of free vectors would go. -/
structure Same (s t : Irqs) : Prop where
  gsiMax : t.gsiMax = s.gsiMax
  gsiData : t.gsiData = s.gsiData
  irqData : ∀ i, t.irqData i = s.irqData i ∨
    (s.irqData i).free = true ∧ ∃ a, t.irqData i = { s.irqData i with apicId := a }

theorem Same.refl (s : Irqs) : Same s s := ⟨rfl, rfl, fun _ => .inl rfl⟩

structure Got (s : Irqs) (vecs : List Nat) (t : Irqs) : Prop where
  nodup : vecs.Nodup
  new : ∀ v ∈ vecs, 48 ≤ v ∧ v < 240 ∧ (s.irqData (v - 48)).free = true
  exact : ∀ i, (t.irqData i).free = false ↔ (s.irqData i).free = false ∨ 48 + i ∈ vecs
  back : Same s (freeVecs t vecs)

def Idle (s : Irqs) (v : Nat) : Prop :=
  48 ≤ v ∧ v < 240 ∧ (s.irqData (v - 48)).handlers = [] ∧ (s.irqData (v - 48)).gsi = none

theorem irqFreeVector_unlink (hlo : 48 ≤ v) (hhi : v < 240) (h : (s.irqData (v - 48)).handlers = []) :
    (s.irqFreeVector v).1 =
      (s.unlink (v - 48)).setIrq (v - 48) { (s.unlink (v - 48)).irqData (v - 48) with free := true } := by
  have hitem : Irqs.getIrqItem (v : Int) = some (v - 48) := by
    unfold Irqs.getIrqItem
    rw [if_pos (by omega)]
    congr 1
    omega
  simp only [Irqs.irqFreeVector, hitem, h, List.length_nil, Nat.lt_irrefl, if_false]

theorem irqFreeVector_eq (h : Idle s v) :
    (s.irqFreeVector v).1 = s.setIrq (v - 48) { s.irqData (v - 48) with free := true } := by
  obtain ⟨hlo, hhi, hhandlers, hgsi⟩ := h
  have hunlink : s.unlink (v - 48) = s := by simp only [Irqs.unlink, hgsi]
  rw [irqFreeVector_unlink hlo hhi hhandlers, hunlink]

theorem freeVecs_eq (h : ∀ v ∈ vecs, Idle s v) :
    (freeVecs s vecs).gsiMax = s.gsiMax ∧ (freeVecs s vecs).gsiData = s.gsiData ∧
      ∀ i, (freeVecs s vecs).irqData i =
        if 48 + i ∈ vecs then { s.irqData i with free := true } else s.irqData i := by
  induction vecs generalizing s with
  | nil => exact ⟨rfl, rfl, fun i => (if_neg List.not_mem_nil).symm⟩
  | cons v vecs ih =>
    have hv := h v List.mem_cons_self
    have hstep := irqFreeVector_eq hv
    -- The other vectors stay as they were.
    have hrest : ∀ u ∈ vecs, Idle (s.irqFreeVector v).1 u := by
      intro u hu
      obtain ⟨h1, h2, h3, h4⟩ := h u (List.mem_cons_of_mem _ hu)
      refine ⟨h1, h2, ?_⟩
      rw [hstep]
      simp only [Irqs.setIrq, Function.update_apply]
      split
      · rename_i heq
        rw [← heq]
        exact ⟨h3, h4⟩
      · exact ⟨h3, h4⟩
    obtain ⟨hmax, hgsi, hdata⟩ := ih hrest
    have hfold : freeVecs s (v :: vecs) = freeVecs (s.irqFreeVector v).1 vecs := rfl
    rw [hfold]
    refine ⟨hmax.trans (by rw [hstep]; rfl), hgsi.trans (by rw [hstep]; rfl), fun i => ?_⟩
    rw [hdata i, hstep]
    have hlo := hv.1
    simp only [Irqs.setIrq, Function.update_apply, List.mem_cons]
    by_cases hi : i = v - 48
    · rw [if_pos (show 48 + i = v ∨ _ from .inl (by omega)), if_pos hi, hi]
      split <;> rfl
    · rw [if_neg hi]
      by_cases hmem : 48 + i ∈ vecs
      · rw [if_pos hmem, if_pos (.inr hmem)]
      · rw [if_neg hmem, if_neg (not_or.mpr ⟨by omega, hmem⟩)]

structure Taken (apic : Nat → Nat) (s : Irqs) (vecs : List Nat) (t : Irqs) : Prop where
  gsiMax : t.gsiMax = s.gsiMax
  gsiData : t.gsiData = s.gsiData
  nodup : vecs.Nodup
  new : ∀ v ∈ vecs, 48 ≤ v ∧ v < 240 ∧ (s.irqData (v - 48)).free = true
  irqData : ∀ i, t.irqData i =
    if 48 + i ∈ vecs then { s.irqData i with apicId := apic (48 + i), free := false } else s.irqData i

theorem Taken.none (apic : Nat → Nat) (s : Irqs) : Taken apic s [] s :=
  ⟨rfl, rfl, List.nodup_nil, fun _ h => absurd h List.not_mem_nil, fun _ => (if_neg List.not_mem_nil).symm⟩

variable (apic) in
theorem Taken.block (hb : s.Block n i) : Taken apic s (List.range' (48 + i) n) (s.take apic i n) where
  gsiMax := Irqs.take_gsiMax ..
  gsiData := Irqs.take_gsiData ..
  nodup := List.nodup_range'
  new v hv := by
    rw [List.mem_range'_1] at hv
    have hfit := hb.1
    unfold irqMax at hfit
    exact ⟨by omega, by omega, hb.2.2 _ (by omega) (by omega)⟩
  irqData j := by
    rw [Irqs.take_irqData]
    by_cases hj : i ≤ j ∧ j < i + n
    · rw [if_pos hj, if_pos (List.mem_range'_1.mpr (by omega))]
    · rw [if_neg hj, if_neg (fun h => hj (by have := List.mem_range'_1.mp h; omega))]

theorem Taken.concat {r : Irqs} (h : Taken apic s vecs t) (h' : Taken apic t [v] r) :
    Taken apic s (vecs ++ [v]) r := by
  obtain ⟨hlo, hhi, hfree⟩ := h'.new v (List.mem_singleton_self v)
  have hnot : v ∉ vecs := by
    intro hv
    rw [h.irqData, if_pos (by rwa [show 48 + (v - 48) = v by omega])] at hfree
    cases hfree
  refine ⟨h'.gsiMax.trans h.gsiMax, h'.gsiData.trans h.gsiData, ?_, fun u hu => ?_, fun i => ?_⟩
  · exact List.nodup_append.mpr ⟨h.nodup, List.nodup_singleton v, fun a ha b hb hab =>
      hnot (List.mem_singleton.mp hb ▸ hab ▸ ha)⟩
  · rcases List.mem_append.mp hu with hu | hu
    · exact h.new u hu
    · obtain rfl := List.mem_singleton.mp hu
      rw [h.irqData, if_neg (by rwa [show 48 + (u - 48) = u by omega])] at hfree
      exact ⟨hlo, hhi, hfree⟩
  · rw [h'.irqData, h.irqData]
    simp only [List.mem_append, List.mem_singleton]
    by_cases hv : 48 + i = v
    · rw [if_pos hv, if_neg (hv ▸ hnot), if_pos (.inr hv)]
    · rw [if_neg hv]
      by_cases hmem : 48 + i ∈ vecs
      · rw [if_pos hmem, if_pos (.inl hmem)]
      · rw [if_neg hmem, if_neg (not_or.mpr ⟨hmem, hv⟩)]

variable {live : List Alloc}

theorem Taken.got (hs : World.Sound ⟨s, live⟩) (h : Taken apic s vecs t) : Got s vecs t where
  nodup := h.nodup
  new := h.new
  exact i := by
    rw [h.irqData]
    split
    · exact iff_of_true rfl (.inr ‹_›)
    · exact ⟨.inl, fun h => h.resolve_right ‹_›⟩
  back := by
    have hidle : ∀ v ∈ vecs, Idle t v := by
      intro v hv
      obtain ⟨hlo, hhi, hfree⟩ := h.new v hv
      have hv' : 48 + (v - 48) ∈ vecs := by rwa [show 48 + (v - 48) = v by omega]
      refine ⟨hlo, hhi, ?_⟩
      rw [h.irqData, if_pos hv']
      exact ⟨hs.idle _ hfree, hs.gsi_none (by unfold irqMax; omega) hfree⟩
    obtain ⟨hmax, hgsi, hdata⟩ := freeVecs_eq hidle
    refine ⟨hmax.trans h.gsiMax, hgsi.trans h.gsiData, fun i => ?_⟩
    rw [hdata, h.irqData]
    split
    · have hfree := (h.new _ ‹_›).2.2
      rw [show 48 + i - 48 = i by omega] at hfree
      exact .inr ⟨hfree, apic (48 + i), by rw [← hfree]⟩
    · exact .inl rfl

theorem msixLoop_taken (left : Nat) (h : Taken apic s vecs t) :
    ∃ t' vecs', msixLoop apic left t vecs = some (t', vecs') ∧ Taken apic s vecs' t' ∧
      vecs'.length ≤ vecs.length + left := by
  induction left generalizing t vecs with
  | zero => exact ⟨t, vecs, rfl, h, Nat.le_refl _⟩
  | succ left ih =>
    unfold msixLoop
    rcases Irqs.irqAllocMsiVectors_spec t apic (show (1 : BitVec 32) &&& (1 - 1) = 0 by decide) (by decide) with
      ⟨i, hcall, hb⟩ | ⟨hcall, -⟩
    · have hnew := h.concat (Taken.block apic (n := 1) hb)
      obtain ⟨t', vecs', heq, htaken, hle⟩ := ih hnew
      rw [hcall]
      refine ⟨t', vecs', ?_, htaken, ?_⟩
      · simp only [if_neg (show ¬(48 + i : Int) < 0 by omega), show (48 + i : Int).toNat = 48 + i by omega]
        exact heq
      · rw [List.length_append, List.length_singleton] at hle
        omega
    · rw [hcall]
      exact ⟨t, vecs, rfl, h, by omega⟩

def Size (n : Nat) : Prop := n ∈ [1, 2, 4, 8, 16, 32]

theorem size_roundVecs (h : 0 < n) : Size (roundVecs n) := by
  have hle : n ≤ 2 → n = 1 ∨ n = 2 := by omega
  unfold Size roundVecs
  split
  · decide
  split
  · decide
  split
  · decide
  split
  · decide
  · rcases hle (by omega) with rfl | rfl <;> decide

theorem roundVecs_mono (h : m ≤ n) : roundVecs m ≤ roundVecs n := by
  unfold roundVecs
  repeat' split
  all_goals omega

theorem roundVecs_le (n : Nat) : roundVecs n ≤ 32 := by
  unfold roundVecs
  repeat' split
  all_goals omega

theorem le_roundVecs (h : n ≤ 32) : n ≤ roundVecs n := by
  unfold roundVecs
  repeat' split
  all_goals omega

theorem Size.pow (h : Size n) : BitVec.ofNat 32 n &&& (BitVec.ofNat 32 n - 1) = 0 ∧
    BitVec.ofNat 32 n ≠ 0 ∧ (BitVec.ofNat 32 n).toNat = n ∧ 0 < n := by
  unfold Size at h
  simp only [List.mem_cons, List.not_mem_nil, or_false] at h
  rcases h with rfl | rfl | rfl | rfl | rfl | rfl <;> decide

/-- A device gets the larger block where there is one, or else the smaller one. -/
inductive Gets (apic : Nat → Nat) (s : Irqs) (a b : Nat) : Irqs → List Nat → Prop
  | larger {t : Irqs} {vecs : List Nat} (i : Nat) (block : s.Block b i) (taken : Taken apic s vecs t)
    (length : vecs.length = b) : Gets apic s a b t vecs
  | smaller {t : Irqs} {vecs : List Nat} (none : ∀ i, ¬s.Block b i) (i : Nat) (block : s.Block a i)
    (taken : Taken apic s vecs t) (length : vecs.length = a) : Gets apic s a b t vecs
  | neither (none : ∀ i, ¬s.Block b i) (none' : ∀ i, ¬s.Block a i) : Gets apic s a b s []

theorem Gets.taken (h : Gets apic s a b t vecs) : Taken apic s vecs t := by
  cases h with
  | larger _ _ taken _ => exact taken
  | smaller _ _ _ taken _ => exact taken
  | neither _ _ => exact Taken.none apic s

theorem Gets.within_iff {minvecs : Nat} (h : Gets apic s (roundVecs minvecs) (roundVecs n) t vecs)
    (h0 : 0 < minvecs) (hle : minvecs ≤ n) :
    (roundVecs minvecs ≤ vecs.length → minvecs ≤ vecs.length ∧ vecs.length ≤ m) ↔
      (∀ i, s.Block (roundVecs n) i → minvecs ≤ 32 ∧ roundVecs n ≤ m) ∧
        ((∀ i, ¬s.Block (roundVecs n) i) → ∀ i, s.Block (roundVecs minvecs) i →
          minvecs ≤ 32 ∧ roundVecs minvecs ≤ m) := by
  have hmono := roundVecs_mono hle
  have hmin : minvecs ≤ 32 → minvecs ≤ roundVecs minvecs := le_roundVecs
  have hsmall := roundVecs_le n
  have hpos := (size_roundVecs h0).pow.2.2.2
  cases h with
  | larger i block taken length =>
    rw [length]
    constructor
    · intro h
      have := h hmono
      exact ⟨fun _ _ => ⟨by omega, this.2⟩, fun hno => absurd block (hno i)⟩
    · rintro ⟨h, -⟩ -
      have := h i block
      omega
  | smaller none i block taken length =>
    rw [length]
    constructor
    · intro h
      have := h (Nat.le_refl _)
      exact ⟨fun i hb => absurd hb (none i), fun _ _ _ => ⟨by omega, this.2⟩⟩
    · rintro ⟨-, h⟩ -
      have := h none i block
      omega
  | neither none none' =>
    refine iff_of_true (fun h => ?_) ⟨fun i hb => absurd hb (none i), fun _ i hb => absurd hb (none' i)⟩
    rw [List.length_nil] at h
    omega

variable (s apic) in
theorem msiVecs_gets (ha : Size a) (hb : Size b) :
    ∃ t vecs, msiVecs apic s a b = some (t, vecs) ∧ Gets apic s a b t vecs := by
  obtain ⟨hb₁, hb₂, hbn, -⟩ := hb.pow
  obtain ⟨ha₁, ha₂, han, -⟩ := ha.pow
  unfold msiVecs
  rcases Irqs.irqAllocMsiVectors_spec s apic hb₁ hb₂ with ⟨i, hcall, hblock⟩ | ⟨hcall, hno⟩
  · rw [hcall]
    rw [hbn] at hblock ⊢
    simp only [if_neg (show ¬(48 + i : Int) < 0 by omega), show (48 + i : Int).toNat = 48 + i by omega]
    exact ⟨_, _, rfl, .larger i hblock (Taken.block apic hblock) List.length_range'⟩
  · rw [hcall]
    rw [hbn] at hno
    simp only [if_pos (show -ENOSPC < 0 by decide)]
    rcases Irqs.irqAllocMsiVectors_spec s apic ha₁ ha₂ with ⟨i, hcall, hblock⟩ | ⟨hcall, hno'⟩
    · rw [hcall]
      rw [han] at hblock ⊢
      simp only [if_pos (show (0 : Int) < 48 + i by omega), show (48 + i : Int).toNat = 48 + i by omega]
      exact ⟨_, _, rfl, .smaller hno i hblock (Taken.block apic hblock) List.length_range'⟩
    · rw [hcall]
      rw [han] at hno'
      exact ⟨_, _, rfl, .neither hno hno'⟩

theorem Got.link (hs : World.Sound ⟨s, live⟩) {g : Nat} (hb : s.Block 1 i) (hv : (s.gsiData g).vector = 0) :
    Got s [48 + i] ((s.take apic i 1).link i g) := by
  have hi : i < irqMax := by have := hb.1; omega
  have hfree := hb.2.2 i (Nat.le_refl i) (Nat.lt_succ_self i)
  have htaken := Taken.block apic hb
  have hmem : 48 + i ∈ List.range' (48 + i) 1 := List.mem_singleton_self _
  have hitem : (s.take apic i 1).irqData i = { s.irqData i with apicId := apic (48 + i), free := false } := by
    rw [htaken.irqData, if_pos hmem]
  refine ⟨List.nodup_singleton _, htaken.new, fun j => ?_, ?_⟩
  · refine Iff.trans ?_ ((htaken.got hs).exact j)
    rw [World.link_irqData]
    split
    · subst_vars
      rfl
    · rfl
  · have hgsi : (((s.take apic i 1).link i g).irqData i).gsi = some g := by rw [World.link_irqData, if_pos rfl]
    have hhandlers : (((s.take apic i 1).link i g).irqData i).handlers = [] := by
      rw [World.link_irqData, if_pos rfl, hitem]
      exact hs.idle i hfree
    have hback : freeVecs ((s.take apic i 1).link i g) [48 + i] = _ :=
      irqFreeVector_unlink (v := 48 + i) (by omega) (by unfold irqMax at hi; omega)
        (by rw [Nat.add_sub_cancel_left]; exact hhandlers)
    rw [Nat.add_sub_cancel_left] at hback
    rw [hback]
    generalize ht : (s.take apic i 1).link i g = t at hgsi ⊢
    have hunlink : t.unlink i =
        (t.setGsi g { t.gsiData g with vector := 0 }).setIrq i { t.irqData i with gsi := none } := by
      simp only [Irqs.unlink, hgsi]
    refine ⟨?_, funext fun g' => ?_, fun j => ?_⟩
    · rw [hunlink, ← ht]
      exact htaken.gsiMax
    · rw [hunlink]
      have hdata : (s.take apic i 1).gsiData = s.gsiData := htaken.gsiData
      simp only [Irqs.setIrq, Irqs.setGsi, Function.update_apply, ← ht, World.link_gsiData, hdata, if_true]
      split
      · subst_vars
        rw [← hv]
      · rfl
    · simp only [Irqs.setIrq, Function.update_apply, World.unlink_irqData]
      rw [← ht, World.link_irqData, World.link_irqData]
      by_cases hj : j = i
      · subst hj
        refine .inr ⟨hfree, apic (48 + j), ?_⟩
        simp only [if_true, hitem]
        rw [← hs.gsi_none hi hfree, ← hfree]
      · simp only [if_neg hj]
        refine .inl ?_
        rw [htaken.irqData, if_neg (fun h => hj (by have := List.mem_singleton.mp h; omega))]

variable (apic) in
theorem gsiVecs_got (hs : World.Sound ⟨s, live⟩) {gsi : Int}
    (hnew : ∀ g, s.getGsiItem gsi = some g → (s.gsiData g).present = true → (s.gsiData g).vector = 0) :
    ∃ t vecs, gsiVecs apic s gsi = some (t, vecs) ∧ Got s vecs t ∧ vecs.length ≤ 1 := by
  have hnone : ∀ e : Int, ¬0 < e → s.irqAllocGsiVector apic gsi = some (s, e) →
      ∃ t vecs, gsiVecs apic s gsi = some (t, vecs) ∧ Got s vecs t ∧ vecs.length ≤ 1 := by
    intro e he hcall
    refine ⟨s, [], ?_, (Taken.none apic s).got hs, Nat.zero_le _⟩
    simp only [gsiVecs, hcall, if_neg he]
  obtain ⟨t, r, hcall, hr⟩ := Irqs.irqAllocGsiVector_spec s apic gsi
  cases hr with
  | absent _ => exact hnone _ (by decide) hcall
  | full _ => exact hnone _ (by decide) hcall
  | shared hg hp hv => exact absurd (hnew _ hg hp) hv
  | @new g i hg hv hb =>
    refine ⟨(s.take apic i 1).link i g, [48 + i], ?_, Got.link hs hb hv, Nat.le_refl 1⟩
    simp only [gsiVecs, hcall]
    rw [if_pos (by omega), show (48 + i : Int).toNat = 48 + i by omega]

/-- A request takes as many vectors as it says, within its bounds, which can be given back; or it fails and changes
nothing. -/
def Right (apic : Nat → Nat) (mem : Bool) (s : Irqs) (dev : PciDev) (minvecs maxvecs : Nat) : Prop :=
  ∃ t dev' r, pciAllocIrqVectors apic mem s dev minvecs maxvecs = some (t, dev', r) ∧
    (r < 0 ∧ dev' = dev ∧ Same s t ∨
      ∃ vecs : List Nat, r = vecs.length ∧ minvecs ≤ vecs.length ∧ vecs.length ≤ maxvecs ∧ Got s vecs t ∧
        (∀ (i v : Nat), vecs[i]? = some v → pciIrqVector dev' i = some (v : Int)) ∧
        (∀ i, vecs.length < i → pciIrqVector dev' i = some (-EINVAL)) ∧
        Same s (pciFreeIrqVectors t dev').1)

/-- The request is refused before any vector is taken. -/
def Refused (dev : PciDev) (minvecs maxvecs : Nat) : Prop :=
  dev.vecs.isSome = true ∨ minvecs = 0 ∨ maxvecs < minvecs ∨ ∃ e, limits dev minvecs maxvecs = .error e

/-- The block that the device gets lies within the bounds, or the GSI of the device has no vector yet. -/
def Fits (s : Irqs) (dev : PciDev) (minvecs maxvecs : Nat) : Prop :=
  if dev.msix.offset ≠ 0 then True
  else if dev.msi.offset ≠ 0 then
    let larger := roundVecs (min maxvecs dev.msi.size)
    (∀ i, s.Block larger i → minvecs ≤ 32 ∧ larger ≤ maxvecs) ∧
      ((∀ i, ¬s.Block larger i) → ∀ i, s.Block (roundVecs minvecs) i → minvecs ≤ 32 ∧ roundVecs minvecs ≤ maxvecs)
  else ∀ g, s.getGsiItem dev.gsi = some g → (s.gsiData g).present = true → (s.gsiData g).vector = 0

section
variable {mem : Bool} {dev : PciDev} {minvecs maxvecs a b : Nat}

theorem limits_error {e : Int} (h : limits dev minvecs maxvecs = .error e) : e < 0 := by
  have hneg : -ENOSPC < 0 := by decide
  unfold limits at h
  split at h
  · split at h <;> cases h
    exact hneg
  · split at h
    · split at h <;> cases h
      exact hneg
    · split at h <;> cases h
      exact hneg

theorem right_of_refused (h : Refused dev minvecs maxvecs) : Right apic mem s dev minvecs maxvecs := by
  have hfail : ∀ e : Int, e < 0 → pciAllocIrqVectors apic mem s dev minvecs maxvecs = some (s, dev, e) →
      Right apic mem s dev minvecs maxvecs := fun e he heq => ⟨s, dev, e, heq, .inl ⟨he, rfl, Same.refl s⟩⟩
  unfold pciAllocIrqVectors at hfail
  by_cases hvecs : dev.vecs.isSome = true
  · rw [if_pos hvecs] at hfail
    exact hfail (-EBUSY) (by decide) rfl
  rw [if_neg hvecs] at hfail
  by_cases h0 : minvecs = 0
  · rw [if_pos h0] at hfail
    exact hfail (-EINVAL) (by decide) rfl
  rw [if_neg h0] at hfail
  by_cases hle : maxvecs < minvecs
  · rw [if_pos hle] at hfail
    exact hfail (-EINVAL) (by decide) rfl
  rw [if_neg hle] at hfail
  cases hlim : limits dev minvecs maxvecs with
  | error e =>
    rw [hlim] at hfail
    exact hfail e (limits_error hlim) rfl
  | ok bounds =>
    rw [hlim] at hfail
    rcases h with h | h | h | ⟨e, h⟩
    · exact absurd h hvecs
    · exact absurd h h0
    · exact absurd h hle
    · rw [hlim] at h
      cases h

section
variable (h : ¬Refused dev minvecs maxvecs) (hlim : limits dev minvecs maxvecs = .ok (a, b))
  (heq : takeVecs apic s dev a b = some (t, vecs))
include h hlim heq

theorem alloc_eq : pciAllocIrqVectors apic true s dev minvecs maxvecs =
      if vecs.length < a then some (freeVecs t vecs, dev, -ENOSPC)
      else some (t, { dev with vecs := some (vecs ++ List.replicate (b - vecs.length) 0), numvecs := vecs.length },
        (vecs.length : Int)) := by
  simp only [Refused, not_or] at h
  obtain ⟨hvecs, h0, hle, -⟩ := h
  unfold pciAllocIrqVectors
  rw [if_neg hvecs, if_neg h0, if_neg hle, hlim]
  simp only [Bool.not_true, Bool.false_eq_true, if_false, heq]

theorem right_got_iff (hgot : Got s vecs t) :
    Right apic true s dev minvecs maxvecs ↔ (a ≤ vecs.length → minvecs ≤ vecs.length ∧ vecs.length ≤ maxvecs) := by
  have hcall := alloc_eq h hlim heq
  have h0 : minvecs ≠ 0 := fun h0 => h (.inr (.inl h0))
  by_cases hshort : vecs.length < a
  · rw [if_pos hshort] at hcall
    exact iff_of_true ⟨_, _, _, hcall, .inl ⟨by decide, rfl, hgot.back⟩⟩ fun hge => by omega
  · rw [if_neg hshort] at hcall
    constructor
    · rintro ⟨t', dev', r, hcall', hr⟩ -
      rw [hcall] at hcall'
      cases hcall'
      rcases hr with ⟨hneg, -⟩ | ⟨vecs', hlen, hmin, hmax, -⟩ <;> omega
    · intro hbounds
      obtain ⟨hmin, hmax⟩ := hbounds (Nat.le_of_not_lt hshort)
      refine ⟨_, _, _, hcall, .inr ⟨vecs, rfl, hmin, hmax, hgot, fun i v hv => ?_, fun i hi => ?_, ?_⟩⟩
      · obtain ⟨hi, -⟩ := List.getElem?_eq_some_iff.mp hv
        simp only [pciIrqVector, Option.getD_some]
        rw [if_neg (by omega), List.getElem?_append_left hi, hv]
        rfl
      · simp only [pciIrqVector]
        rw [if_pos hi]
      · simp only [pciFreeIrqVectors, Option.getD_some, List.take_left']
        rw [if_neg (by omega)]
        exact hgot.back

end

theorem not_right_of_shared {g : Nat} (h : ¬Refused dev minvecs maxvecs)
    (hx : ¬dev.msix.offset ≠ 0) (hm : ¬dev.msi.offset ≠ 0) (hlim : limits dev minvecs maxvecs = .ok (a, b))
    (hg : s.getGsiItem dev.gsi = some g) (hp : (s.gsiData g).present = true) (hv : (s.gsiData g).vector ≠ 0) :
    ¬Right apic true s dev minvecs maxvecs := by
  have heq : takeVecs apic s dev a b = some (s, [(s.gsiData g).vector]) := by
    unfold takeVecs
    rw [if_neg hx, if_neg hm]
    simp only [gsiVecs, Irqs.irqAllocGsiVector, hg, hp, ne_eq, hv]
    simp only [Bool.not_true, Bool.false_eq_true, if_false, not_false_eq_true, if_true]
    rw [if_pos (by omega), Int.toNat_natCast]
  have ha : a ≤ 1 := by
    unfold limits at hlim
    rw [if_neg hx, if_neg hm] at hlim
    split at hlim
    · cases hlim
    · cases hlim
      omega
  have hcall := alloc_eq h hlim heq
  rw [if_neg (by rw [List.length_singleton]; omega)] at hcall
  rintro ⟨t', dev', r, hcall', hr⟩
  rw [hcall] at hcall'
  cases hcall'
  rcases hr with ⟨hneg, -⟩ | ⟨vecs', hlen, -, -, hgot, -⟩
  · omega
  · -- A vector that is taken was free, and is so still.
    have hpos : 0 < vecs'.length := by
      rw [List.length_singleton] at hlen
      omega
    obtain ⟨v, hmem⟩ := List.exists_mem_of_length_pos hpos
    obtain ⟨hlo, -, hfree⟩ := hgot.new v hmem
    have := (hgot.exact (v - 48)).mpr (.inr (by rwa [show 48 + (v - 48) = v by omega]))
    rw [hfree] at this
    cases this

theorem right_iff_fits (hs : World.Sound ⟨s, live⟩) (h : ¬Refused dev minvecs maxvecs) :
    Right apic true s dev minvecs maxvecs ↔ Fits s dev minvecs maxvecs := by
  have hnot := h
  simp only [Refused, not_or, not_exists] at hnot
  obtain ⟨-, h0, hle, herror⟩ := hnot
  cases hlim : limits dev minvecs maxvecs with
  | error e => exact absurd hlim (herror e)
  | ok bounds =>
    obtain ⟨a, b⟩ := bounds
    have hlim' := hlim
    unfold limits at hlim'
    unfold Fits
    by_cases hx : dev.msix.offset ≠ 0
    · rw [if_pos hx] at hlim' ⊢
      split at hlim'
      · cases hlim'
      · cases hlim'
        obtain ⟨t, vecs, heq, htaken, hlen⟩ := msixLoop_taken (min maxvecs dev.msix.size) (Taken.none apic s)
        rw [List.length_nil, Nat.zero_add] at hlen
        rw [right_got_iff h hlim (by unfold takeVecs; rw [if_pos hx]; exact heq) (htaken.got hs)]
        exact iff_of_true (fun h => ⟨h, by omega⟩) trivial
    · rw [if_neg hx] at hlim' ⊢
      by_cases hm : dev.msi.offset ≠ 0
      · rw [if_pos hm] at hlim' ⊢
        split at hlim'
        · cases hlim'
        · cases hlim'
          have hmin : minvecs ≤ min maxvecs dev.msi.size := by omega
          obtain ⟨t, vecs, heq, hgets⟩ := msiVecs_gets apic s (size_roundVecs (Nat.pos_of_ne_zero h0))
            (size_roundVecs (show 0 < min maxvecs dev.msi.size by omega))
          rw [right_got_iff h hlim (by unfold takeVecs; rw [if_neg hx, if_pos hm]; exact heq) (hgets.taken.got hs)]
          exact hgets.within_iff (Nat.pos_of_ne_zero h0) hmin
      · rw [if_neg hm] at hlim' ⊢
        by_cases hnew : ∀ g, s.getGsiItem dev.gsi = some g → (s.gsiData g).present = true → (s.gsiData g).vector = 0
        · split at hlim'
          · cases hlim'
          · cases hlim'
            obtain ⟨t, vecs, heq, hgot, hlen⟩ := gsiVecs_got apic hs hnew
            rw [right_got_iff h hlim (by unfold takeVecs; rw [if_neg hx, if_neg hm]; exact heq) hgot]
            exact iff_of_true (fun h => ⟨h, by omega⟩) hnew
        · refine iff_of_false ?_ hnew
          simp only [not_forall] at hnew
          obtain ⟨g, hg, hp, hv⟩ := hnew
          exact not_right_of_shared h hx hm hlim hg hp hv

theorem not_right_of_no_memory (h : ¬Refused dev minvecs maxvecs) : ¬Right apic false s dev minvecs maxvecs := by
  simp only [Refused, not_or, not_exists] at h
  obtain ⟨hvecs, h0, hle, herror⟩ := h
  rintro ⟨t, dev', r, hcall, -⟩
  unfold pciAllocIrqVectors at hcall
  rw [if_neg hvecs, if_neg h0, if_neg hle] at hcall
  cases hlim : limits dev minvecs maxvecs with
  | error e => exact herror e hlim
  | ok bounds =>
    rw [hlim] at hcall
    cases hcall

end

/-- A request for vectors is right exactly if it is refused, or there is memory and its block lies within the bounds, or
the GSI of a device without messages has no vector yet. -/
theorem irq_vectors_right_iff (hs : World.Sound ⟨s, live⟩) (mem : Bool) (dev : PciDev) (minvecs maxvecs : Nat) :
    Right apic mem s dev minvecs maxvecs ↔
      Refused dev minvecs maxvecs ∨ mem = true ∧ Fits s dev minvecs maxvecs := by
  by_cases h : Refused dev minvecs maxvecs
  · exact iff_of_true (right_of_refused h) (.inl h)
  cases mem with
  | false => exact iff_of_false (not_right_of_no_memory h) fun h' => nomatch (h'.resolve_left h).1
  | true => exact (right_iff_fits hs h).trans ⟨fun h' => .inr ⟨rfl, h'⟩, fun h' => (h'.resolve_left h).2⟩

def messages (size : Nat) : PciDev := { msi := ⟨80, size⟩ }

theorem irq_vectors_right_two :
    Right (fun _ => 0) true (Irqs.init 16 fun _ => true) (messages 4) 1 2 :=
  (irq_vectors_right_iff (World.sound_init 16 fun _ => true) true (messages 4) 1 2).mpr
    (.inr ⟨rfl, fun _ _ => by decide, fun _ _ _ => by decide⟩)

/-- For at most three vectors four are taken. -/
theorem irq_vectors_rounded :
    (pciAllocIrqVectors (fun _ => 0) true (Irqs.init 16 fun _ => true) (messages 4) 1 3).map (·.2.2) = some 4 ∧
      ¬Right (fun _ => 0) true (Irqs.init 16 fun _ => true) (messages 4) 1 3 := by
  have hcall : (pciAllocIrqVectors (fun _ => 0) true (Irqs.init 16 fun _ => true) (messages 4) 1 3).map (·.2.2) =
      some 4 := rfl
  refine ⟨hcall, ?_⟩
  rintro ⟨t, dev', r, heq, h⟩
  rw [heq] at hcall
  obtain rfl : r = 4 := Option.some.inj hcall
  rcases h with ⟨hneg, -⟩ | ⟨vecs, hlen, -, hmax, -⟩ <;> omega

end Novino.Pci
