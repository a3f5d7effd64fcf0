import Mathlib.Data.List.Pairwise
import Mathlib.Data.List.Nodup
import Novino.Lib.Steps
import Novino.X86.Irq

/-! The interrupt vectors over runs of the calls: allocations are apart and aligned, and the links between vectors and
    GSIs are inverse to each other. -/

namespace Novino.X86

open Steps

namespace Irqs

variable {s : Irqs} {apic : Nat → Nat} {n : Nat} {i cnt : Nat} {irq : Option Nat} {num : BitVec 32}

def Block (s : Irqs) (n i : Nat) : Prop :=
  i + n ≤ irqMax ∧ n ∣ 48 + i ∧ ∀ j, i ≤ j → j < i + n → (s.irqData j).free = true

/-- What the search knows at item `i`: each start before the open run has an item in its way, and the open run is free.
-/
structure Searched (s : Irqs) (n i : Nat) (irq : Option Nat) (cnt : Nat) : Prop where
  le : cnt ≤ i
  passed : ∀ a, n ∣ 48 + a → a + cnt < i → ∃ j, a ≤ j ∧ j < a + n ∧ j < irqMax ∧ (s.irqData j).free = false
  run : ∀ j, i - cnt ≤ j → j < i → (s.irqData j).free = true
  opened : 0 < cnt → irq = some (i - cnt) ∧ n ∣ 48 + (i - cnt)
  closed : cnt = 0 → irq = none
  short : cnt < n

theorem tmod_eq_zero_iff (i : Nat) : (48 + i : Int).tmod n = 0 ↔ n ∣ 48 + i := by
  rw [← Int.dvd_iff_tmod_eq_zero]
  exact_mod_cast Iff.rfl

theorem start_add_le {a b : Nat} (ha : n ∣ 48 + a) (hb : n ∣ 48 + b) (h : a < b) : a + n ≤ b := by
  have hdvd : n ∣ (48 + b) - (48 + a) := Nat.dvd_sub hb ha
  have := Nat.le_of_dvd (by omega) hdvd
  omega

theorem Searched.skip (h : Searched s n i irq 0) (hi : ¬n ∣ 48 + i) :
    Searched s n (i + 1) irq 0 where
  le := Nat.zero_le _
  passed a ha hlt := by
    have : a ≠ i := fun heq => hi (heq ▸ ha)
    exact h.passed a ha (by omega)
  run j hj hlt := by omega
  opened h := absurd h (Nat.lt_irrefl 0)
  closed := h.closed
  short := h.short

theorem Searched.grow (h : Searched s n i irq cnt) (hi : cnt = 0 → n ∣ 48 + i)
    (hf : (s.irqData i).free = true) : irq.or (some i) = some (i - cnt) ∧ n ∣ 48 + (i - cnt) ∧
      ∀ j, i - cnt ≤ j → j < i + 1 → (s.irqData j).free = true := by
  have hrun : ∀ j, i - cnt ≤ j → j < i + 1 → (s.irqData j).free = true := by
    intro j hj hlt
    rcases Nat.lt_or_ge j i with hji | hji
    · exact h.run j hj hji
    · exact (show j = i by omega) ▸ hf
  rcases Nat.eq_zero_or_pos cnt with rfl | hpos
  · rw [h.closed rfl]
    exact ⟨rfl, hi rfl, hrun⟩
  · obtain ⟨hirq, hdvd⟩ := h.opened hpos
    rw [hirq]
    exact ⟨rfl, hdvd, hrun⟩

theorem Searched.stop (h : Searched s n i irq cnt) (hi : i < irqMax)
    (hf : (s.irqData i).free = false) : Searched s n (i + 1) none 0 where
  le := Nat.zero_le _
  passed a ha hlt := by
    by_cases hold : a + cnt < i
    · exact h.passed a ha hold
    · -- The start is in the open run, so the run starts there, and item `i` is in its way.
      refine ⟨i, by omega, ?_, hi, hf⟩
      rcases Nat.eq_zero_or_pos cnt with rfl | hpos
      · have := h.short
        omega
      · have hopen := (h.opened hpos).2
        have hle := h.le
        have hshort := h.short
        rcases Nat.lt_or_ge (i - cnt) a with hlt' | hge
        · have := start_add_le hopen ha hlt'
          omega
        · omega
  run j hj hlt := by omega
  opened h := absurd h (Nat.lt_irrefl 0)
  closed _ := rfl
  short := Nat.lt_of_le_of_lt (Nat.zero_le _) h.short

theorem search_spec {left : Nat} (hend : i + left = irqMax) (h : Searched s n i irq cnt) :
    (∃ a, s.search n left i irq cnt = (some a, n) ∧ s.Block n a) ∨
      (s.search n left i irq cnt).2 < n ∧ ∀ a, ¬s.Block n a := by
  induction left generalizing i irq cnt with
  | zero =>
    refine .inr ⟨h.short, fun a hb => ?_⟩
    obtain ⟨hfit, hdvd, hfree⟩ := hb
    have hshort := h.short
    by_cases hold : a + cnt < i
    · obtain ⟨j, h1, h2, h3, h4⟩ := h.passed a hdvd hold
      rw [hfree j h1 h2] at h4
      cases h4
    · omega
  | succ left ih =>
    rw [search]
    by_cases hskip : cnt = 0 ∧ (48 + i : Int).tmod n ≠ 0
    · rw [if_pos hskip]
      obtain ⟨rfl, hmod⟩ := hskip
      exact ih (by omega) (h.skip fun hd => hmod ((tmod_eq_zero_iff i).mpr hd))
    · rw [if_neg hskip]
      have hstart : cnt = 0 → n ∣ 48 + i := by
        intro h0
        by_contra hd
        exact hskip ⟨h0, fun hmod => hd ((tmod_eq_zero_iff i).mp hmod)⟩
      have hle := h.le
      have hshort := h.short
      by_cases hf : (s.irqData i).free = true
      · rw [if_pos hf]
        obtain ⟨hirq, hdvd, hrun⟩ := h.grow hstart hf
        simp only [hirq]
        by_cases hn : (cnt + 1 : Int) = n
        · have hn' : cnt + 1 = n := by exact_mod_cast hn
          rw [if_pos hn]
          refine .inl ⟨i - cnt, by rw [hn'], by omega, hdvd, fun j hj hlt => hrun j hj (by omega)⟩
        · have hn' : cnt + 1 ≠ n := by exact_mod_cast hn
          rw [if_neg hn]
          refine ih (by omega) ⟨by omega, fun a ha hlt => h.passed a ha (by omega), ?_, fun _ => ?_, ?_, by omega⟩
          · intro j hj hlt
            exact hrun j (by omega) hlt
          · rw [show i + 1 - (cnt + 1) = i - cnt by omega]
            exact ⟨rfl, hdvd⟩
          · intro h0
            omega
      · rw [if_neg hf]
        exact ih (by omega) (h.stop (by omega) (by simpa using hf))

variable (s apic) in
theorem irqAllocate_spec (hn : 0 < n) :
    (∃ i, s.irqAllocate apic n = some (s.take apic i n, some i) ∧ s.Block n i) ∨
      s.irqAllocate apic n = some (s, none) ∧ ∀ i, ¬s.Block n i := by
  have hstart : Searched s n 0 none 0 :=
    ⟨Nat.le_refl 0, fun a _ h => absurd h (Nat.not_lt_zero _), fun j _ h => absurd h (Nat.not_lt_zero _),
      fun h => absurd h (Nat.lt_irrefl 0), fun _ => rfl, hn⟩
  have hne : (n : Int) ≠ 0 := by omega
  unfold irqAllocate
  rw [if_neg hne]
  rcases search_spec (Nat.zero_add _) hstart with ⟨i, heq, hb⟩ | ⟨hlt, hnone⟩
  · refine .inl ⟨i, ?_, hb⟩
    simp only [heq, Int.lt_irrefl, if_false]
  · have hlt' : ((s.search n irqMax 0 none 0).2 : Int) < n := by exact_mod_cast hlt
    exact .inr ⟨by simp only [if_pos hlt'], hnone⟩

theorem toInt_pos (h : num &&& (num - 1) = 0) (h0 : num ≠ 0) :
    0 < num.toInt ∨ num.toNat = 2147483648 := by
  have hmsb : num.msb = false ∨ (num - 1).msb = false := by
    have hand := congrArg BitVec.msb h
    rw [BitVec.msb_and, show BitVec.msb (0 : BitVec 32) = false from rfl] at hand
    exact Bool.and_eq_false_iff.mp hand
  have hpos : 0 < num.toNat := Nat.pos_of_ne_zero fun h => h0 (BitVec.eq_of_toNat_eq h)
  have hlt := num.isLt
  have hpred : (num - 1).toNat = num.toNat - 1 := by
    rw [BitVec.toNat_sub, show (1 : BitVec 32).toNat = 1 from rfl]
    omega
  rw [BitVec.msb_eq_decide, BitVec.msb_eq_decide, decide_eq_false_iff_not, decide_eq_false_iff_not, hpred] at hmsb
  rw [BitVec.toInt_eq_toNat_cond]
  rcases Nat.lt_or_ge num.toNat 2147483648 with hsmall | hbig
  · left
    rw [if_pos (by omega)]
    omega
  · right
    omega

theorem irqAllocate_min (h : num.toNat = 2147483648) :
    s.irqAllocate apic num.toInt = some (s, none) := by
  have hnum : num.toInt = -2147483648 := by
    rw [BitVec.toInt_eq_toNat_cond, h]
    rfl
  have hsearch : ∀ left i, i + left ≤ irqMax → s.search (-2147483648) left i none 0 = (none, 0) := by
    intro left
    induction left with
    | zero => exact fun _ _ => rfl
    | succ left ih =>
      intro i hi
      have hmod : (48 + i : Int).tmod (-2147483648) ≠ 0 := by
        rw [Int.tmod_neg, Int.tmod_eq_of_lt (by omega) (by unfold irqMax at hi; omega)]
        omega
      rw [search, if_pos ⟨rfl, hmod⟩]
      exact ih (i + 1) (by omega)
  unfold irqAllocate
  rw [hnum, hsearch irqMax 0 (by omega)]
  rfl

variable (s apic) in
theorem irqAllocMsiVectors_spec (hpow : num &&& (num - 1) = 0) (h0 : num ≠ 0) :
    (∃ i, s.irqAllocMsiVectors apic num = some (s.take apic i num.toNat, (48 + i : Int)) ∧ s.Block num.toNat i) ∨
      s.irqAllocMsiVectors apic num = some (s, -ENOSPC) ∧ ∀ i, ¬s.Block num.toNat i := by
  rcases toInt_pos hpow h0 with hpos | hmin
  · have hnum : num.toInt = (num.toNat : Int) := by
      have := num.isLt
      rw [BitVec.toInt_eq_toNat_cond] at hpos ⊢
      split at hpos
      · rw [if_pos ‹_›]
      · omega
    rcases irqAllocate_spec s apic (n := num.toNat) (by omega) with ⟨i, heq, hb⟩ | ⟨heq, hno⟩
    · refine .inl ⟨i, ?_, hb⟩
      simp only [irqAllocMsiVectors, hpow, hnum, heq]
      rfl
    · refine .inr ⟨?_, hno⟩
      simp only [irqAllocMsiVectors, hpow, hnum, heq]
      rfl
  · refine .inr ⟨?_, fun i hb => ?_⟩
    · simp only [irqAllocMsiVectors, hpow, irqAllocate_min hmin]
      rfl
    have := hb.1
    unfold irqMax at this
    omega

inductive Given (s : Irqs) (apic : Nat → Nat) (id : Int) : Irqs → Int → Prop
  | absent (absent : ∀ g, s.getGsiItem id = some g → (s.gsiData g).present = false) : Given s apic id s (- ENXIO)
  | shared {g : Nat} (item : s.getGsiItem id = some g) (present : (s.gsiData g).present = true)
      (vector : (s.gsiData g).vector ≠ 0) : Given s apic id s (s.gsiData g).vector
  | new {g i : Nat} (item : s.getGsiItem id = some g) (vector : (s.gsiData g).vector = 0) (block : s.Block 1 i) :
      Given s apic id ((s.take apic i 1).link i g) (48 + i)
  | full (none : ∀ i, ¬s.Block 1 i) : Given s apic id s (-ENOSPC)

variable (s apic) in
theorem irqAllocGsiVector_spec (id : Int) :
    ∃ t r, s.irqAllocGsiVector apic id = some (t, r) ∧ Given s apic id t r := by
  unfold irqAllocGsiVector
  cases hid : s.getGsiItem id with
  | none => exact ⟨s, _, rfl, .absent fun g hg => by cases hid.symm.trans hg⟩
  | some g =>
    dsimp only
    split_ifs with hp hv
    · refine ⟨s, _, rfl, .absent fun g' hg' => ?_⟩
      cases hid.symm.trans hg'
      simpa using hp
    · exact ⟨s, _, rfl, .shared hid (by simpa using hp) hv⟩
    · rcases irqAllocate_spec s apic (n := 1) Nat.one_pos with ⟨i, heq, hb⟩ | ⟨heq, hno⟩ <;>
        rw [show s.irqAllocate apic 1 = _ from heq]
      · exact ⟨_, _, rfl, .new hid (not_not.mp hv) hb⟩
      · exact ⟨s, _, rfl, .full hno⟩

section
variable (s : Irqs) (apic : Nat → Nat)

theorem take_irqData (i cnt j : Nat) : (s.take apic i cnt).irqData j =
    if i ≤ j ∧ j < i + cnt then { s.irqData j with apicId := apic (48 + j), free := false } else s.irqData j := by
  induction cnt generalizing s i with
  | zero =>
    rw [take, if_neg (by omega)]
  | succ cnt ih =>
    rw [take, ih]
    simp only [setIrq, Function.update_apply]
    by_cases hj : j = i
    · subst hj
      rw [if_neg (by omega), if_pos rfl, if_pos (by omega)]
    · simp only [hj, if_false]
      by_cases hin : i + 1 ≤ j ∧ j < i + 1 + cnt
      · rw [if_pos hin, if_pos (by omega)]
      · rw [if_neg hin, if_neg (by omega)]

theorem take_gsiData (i cnt : Nat) : (s.take apic i cnt).gsiData = s.gsiData := by
  induction cnt generalizing s i with
  | zero => rfl
  | succ cnt ih =>
    rw [take, ih]
    rfl

theorem take_gsiMax (i cnt : Nat) : (s.take apic i cnt).gsiMax = s.gsiMax := by
  induction cnt generalizing s i with
  | zero => rfl
  | succ cnt ih =>
    rw [take, ih]
    rfl

end
end Irqs

/-! ### Allocations that live -/

structure Alloc where
  gsi : Option Nat
  vectors : List Nat
deriving DecidableEq, Repr

def Held (live : List Alloc) (v : Nat) : Prop := ∃ a ∈ live, v ∈ a.vectors

/-- There is a block of `n` vectors at `v`, aligned to `n`, that no allocation has. -/
structure FreeBlock (live : List Alloc) (n v : Nat) : Prop where
  lower : 48 ≤ v
  upper : v + n ≤ 240
  aligned : n ∣ v
  free : ∀ u, v ≤ u → u < v + n → ¬Held live u

theorem held_concat {live : List Alloc} {a : Alloc} {v : Nat} :
    Held (live ++ [a]) v ↔ Held live v ∨ v ∈ a.vectors := by
  simp only [Held, List.mem_append, List.mem_singleton, or_and_right, exists_or, exists_eq_left]

def Alloc.without (a : Alloc) (v : Nat) : Alloc := { a with vectors := a.vectors.filter (· ≠ v) }

/-- The tables, and the allocations that live as told by the results of the calls. -/
structure World where
  table : Irqs
  live : List Alloc

namespace World

/-- A call for a GSI that has an allocation shares it. -/
def grant (live : List Alloc) : IrqOp → Int → List Alloc
  | .gsi _ id, r =>
    if r ≤ 0 ∨ ∃ a ∈ live, a.gsi = some id.toNat then live else live ++ [⟨some id.toNat, [r.toNat]⟩]
  | .msi _ num, r => if r < 0 then live else live ++ [⟨none, List.range' r.toNat num.toNat⟩]
  | .free v, r => if r < 0 then live else (live.map (·.without v.toNat)).filter (·.vectors ≠ [])
  | _, _ => live

def step (w : World) (op : IrqOp) : World :=
  match w.table.call op with
  | none => w
  | some (table, r) => ⟨table, grant w.live op r⟩

def Answer (w : World) : IrqOp → Int → Prop
  | .msi _ num, r =>
    if 0 ≤ r then FreeBlock w.live num.toNat r.toNat
    else num &&& (num - 1) ≠ 0 ∨ ∀ v, ¬FreeBlock w.live num.toNat v
  | .gsi apic id, r =>
    if 0 ≤ r then ⟨some id.toNat, [r.toNat]⟩ ∈ (w.step (.gsi apic id)).live ∧
      (⟨some id.toNat, [r.toNat]⟩ ∈ w.live ∨ FreeBlock w.live 1 r.toNat)
    else (∀ g, w.table.getGsiItem id = some g → (w.table.gsiData g).present = false) ∨ ∀ v, ¬FreeBlock w.live 1 v
  | _, _ => True

/-- A call returns, with the result that the allocations allow; they stay apart, and the links stay inverse to each
other. -/
def Right (w : World) (op : IrqOp) : Prop :=
  (∃ table r, w.table.call op = some (table, r) ∧ w.Answer op r) ∧
    (w.step op).live.Pairwise (fun a b => a.vectors.Disjoint b.vectors) ∧
    ∀ g i, i < irqMax → (((w.step op).table.irqData i).gsi = some g ↔ ((w.step op).table.gsiData g).vector = 48 + i)

def init (gsiMax : Nat) (present : Nat → Bool) : World := ⟨Irqs.init gsiMax present, []⟩

structure Sound (w : World) : Prop where
  free : ∀ i < irqMax, (w.table.irqData i).free = false ↔ Held w.live (48 + i)
  inside : ∀ a ∈ w.live, ∀ v ∈ a.vectors, 48 ≤ v ∧ v < 240
  apart : w.live.Pairwise (fun a b => a.vectors.Disjoint b.vectors)
  linked : ∀ g i, i < irqMax → ((w.table.irqData i).gsi = some g ↔ (w.table.gsiData g).vector = 48 + i)
  vector : ∀ g, (w.table.gsiData g).vector ≠ 0 → ⟨some g, [(w.table.gsiData g).vector]⟩ ∈ w.live
  owner : ∀ a ∈ w.live, ∀ g, a.gsi = some g →
    (w.table.gsiData g).vector ≠ 0 ∧ a.vectors = [(w.table.gsiData g).vector]
  idle : ∀ i, (w.table.irqData i).free = true → (w.table.irqData i).handlers = []

variable {w : World} {apic : Nat → Nat} {n i : Nat} {table : Irqs} {live : List Alloc} {g v u : Nat} {a : Alloc}
  {op : IrqOp} (s : Irqs)

theorem sound_init (gsiMax : Nat) (present : Nat → Bool) : (init gsiMax present).Sound where
  free i _ := by simp [init, Irqs.init, Held]
  inside a ha := absurd ha List.not_mem_nil
  apart := List.Pairwise.nil
  linked g i _ := iff_of_false (fun h => Option.some_ne_none g h.symm) (by simp only [init, Irqs.init]; omega)
  vector g h := absurd rfl h
  owner a ha := absurd ha List.not_mem_nil
  idle _ _ := rfl

theorem Sound.block_iff (hs : w.Sound) : w.table.Block n i ↔ FreeBlock w.live n (48 + i) := by
  have hfree : ∀ j < irqMax, (w.table.irqData j).free = true ↔ ¬Held w.live (48 + j) := by
    intro j hj
    rw [← hs.free j hj, Bool.not_eq_false]
  constructor
  · rintro ⟨hfit, hdvd, hall⟩
    refine ⟨by omega, by unfold irqMax at hfit; omega, hdvd, fun u hu hlt => ?_⟩
    have := (hfree (u - 48) (by omega)).mp (hall _ (by omega) (by omega))
    rwa [show 48 + (u - 48) = u by omega] at this
  · rintro ⟨-, hfit, hdvd, hall⟩
    have hle : i + n ≤ irqMax := by unfold irqMax; omega
    exact ⟨hle, hdvd, fun j hj hlt => (hfree j (by omega)).mpr (hall _ (by omega) (by omega))⟩

theorem Sound.no_block (hs : w.Sound) (h : ∀ i, ¬w.table.Block n i) (v : Nat) : ¬FreeBlock w.live n v := by
  intro hb
  refine h (v - 48) (hs.block_iff.mpr ?_)
  rwa [show 48 + (v - 48) = v by have := hb.lower; omega]

theorem Sound.gsi_none (hs : w.Sound) (hi : i < irqMax) (hf : (w.table.irqData i).free = true) :
    (w.table.irqData i).gsi = none := by
  rcases hg : (w.table.irqData i).gsi with _ | g
  · rfl
  · have hv := (hs.linked g i hi).mp hg
    have hmem := hs.vector g (by omega)
    rw [hv] at hmem
    have := (hs.free i hi).mpr ⟨_, hmem, List.mem_singleton_self _⟩
    rw [hf] at this
    cases this

variable (apic) in
theorem Sound.take (hs : w.Sound) (hb : w.table.Block n i) :
    Sound ⟨w.table.take apic i n, w.live ++ [⟨none, List.range' (48 + i) n⟩]⟩ where
  free j hj := by
    rw [held_concat, List.mem_range'_1, Irqs.take_irqData, ← hs.free j hj]
    by_cases hin : i ≤ j ∧ j < i + n
    · rw [if_pos hin]
      exact iff_of_true rfl (.inr (by omega))
    · rw [if_neg hin]
      exact ⟨.inl, fun h => h.resolve_right (by omega)⟩
  inside a ha v hv := by
    rcases List.mem_append.mp ha with h | h
    · exact hs.inside a h v hv
    · rw [List.mem_singleton.mp h, List.mem_range'_1] at hv
      have := hb.1
      unfold irqMax at this
      omega
  apart := by
    refine List.pairwise_append.mpr ⟨hs.apart, List.pairwise_singleton _ _, fun a ha b hbm v hv hv' => ?_⟩
    rw [List.mem_singleton.mp hbm, List.mem_range'_1] at hv'
    exact (hs.block_iff.mp hb).free v (by omega) (by omega) ⟨a, ha, hv⟩
  linked g j hj := by
    rw [Irqs.take_gsiData, Irqs.take_irqData, ← hs.linked g j hj]
    split <;> rfl
  vector g h := by
    rw [Irqs.take_gsiData] at h ⊢
    exact List.mem_append_left _ (hs.vector g h)
  owner a ha g hg := by
    rw [Irqs.take_gsiData]
    rcases List.mem_append.mp ha with h | h
    · exact hs.owner a h g hg
    · rw [List.mem_singleton.mp h] at hg
      cases hg
  idle j hf := by
    rw [Irqs.take_irqData] at hf ⊢
    split at hf
    · cases hf
    · rw [if_neg ‹_›]
      exact hs.idle j hf

theorem link_irqData (i g j : Nat) :
    (s.link i g).irqData j = if j = i then { s.irqData i with gsi := some g } else s.irqData j :=
  Function.update_apply ..

theorem link_gsiData (i g g' : Nat) :
    (s.link i g).gsiData g' = if g' = g then { s.gsiData g with vector := 48 + i } else s.gsiData g' :=
  Function.update_apply ..

theorem Sound.link (hs : Sound ⟨table, live ++ [⟨none, [48 + i]⟩]⟩)
    (hi : i < irqMax) (hg : (table.gsiData g).vector = 0) :
    Sound ⟨table.link i g, live ++ [⟨some g, [48 + i]⟩]⟩ := by
  have hfresh : ∀ g', (table.gsiData g').vector ≠ 48 + i := by
    intro g' hv
    have hmem := hs.vector g' (by simp only; omega)
    rcases List.mem_append.mp hmem with h | h
    · refine (List.pairwise_append.mp hs.apart).2.2 _ h _ (List.mem_singleton_self _) ?_ (List.mem_singleton_self _)
      exact hv ▸ List.mem_singleton_self _
    · cases List.mem_singleton.mp h
  refine ⟨fun j hj => ?_, fun a ha v hv => ?_, ?_, fun g' j hj => ?_, fun g' h => ?_, fun a ha g' hg' => ?_,
    fun j hf => ?_⟩
  · have hfree := hs.free j hj
    rw [held_concat] at hfree ⊢
    rw [← hfree, link_irqData]
    split
    · subst_vars
      rfl
    · rfl
  · rcases List.mem_append.mp ha with h | h
    · exact hs.inside a (List.mem_append_left _ h) v hv
    · rw [List.mem_singleton.mp h] at hv
      exact hs.inside _ (List.mem_append_right _ (List.mem_singleton_self _)) v hv
  · have happ := List.pairwise_append.mp hs.apart
    refine List.pairwise_append.mpr ⟨happ.1, List.pairwise_singleton _ _, fun a ha b hb => ?_⟩
    rw [List.mem_singleton.mp hb]
    exact happ.2.2 a ha ⟨none, [48 + i]⟩ (List.mem_singleton_self _)
  · have hlinked := hs.linked g' j hj
    have hfresh := hfresh g'
    simp only at hlinked
    simp only [link_irqData, link_gsiData]
    by_cases hji : j = i
    · subst hji
      by_cases hgg : g' = g
      · simp [hgg]
      · simp only [if_true, if_neg hgg, Option.some.injEq]
        exact iff_of_false (fun h => hgg h.symm) hfresh
    · by_cases hgg : g' = g
      · subst hgg
        simp only [if_neg hji, if_true, hlinked]
        omega
      · simp only [if_neg hji, if_neg hgg, hlinked]
  · rw [link_gsiData] at h ⊢
    by_cases hgg : g' = g
    · rw [if_pos hgg, hgg]
      exact List.mem_append_right _ (List.mem_singleton_self _)
    · rw [if_neg hgg] at h ⊢
      rcases List.mem_append.mp (hs.vector g' h) with hmem | hmem
      · exact List.mem_append_left _ hmem
      · cases List.mem_singleton.mp hmem
  · rw [link_gsiData]
    rcases List.mem_append.mp ha with hmem | hmem
    · have howner := hs.owner a (List.mem_append_left _ hmem) g' hg'
      have hgg : g' ≠ g := fun heq => howner.1 (heq ▸ hg)
      rw [if_neg hgg]
      exact howner
    · obtain rfl := List.mem_singleton.mp hmem
      obtain rfl := Option.some.inj hg'
      rw [if_pos rfl]
      exact ⟨by simp only; omega, rfl⟩
  · rw [link_irqData] at hf ⊢
    split at hf
    · subst_vars
      rw [if_pos rfl]
      exact hs.idle j hf
    · rw [if_neg ‹_›]
      exact hs.idle j hf

/-! ### Vectors that are given back -/

theorem unlink_irqData (i j : Nat) :
    (s.unlink i).irqData j = if j = i then { s.irqData i with gsi := none } else s.irqData j := by
  rcases hg : (s.irqData i).gsi with _ | g
  · have hunlink : s.unlink i = s := by simp only [Irqs.unlink, hg]
    have hsame : { s.irqData i with gsi := none } = s.irqData i := by rw [← hg]
    rw [hunlink, hsame]
    split
    · subst_vars
      rfl
    · rfl
  · simp only [Irqs.unlink, hg, Irqs.setIrq, Irqs.setGsi, Function.update_apply]

theorem unlink_vector (i g : Nat) :
    ((s.unlink i).gsiData g).vector = if (s.irqData i).gsi = some g then 0 else (s.gsiData g).vector := by
  unfold Irqs.unlink
  cases hg : (s.irqData i).gsi with
  | none => rfl
  | some g' =>
    simp only [Irqs.setIrq, Irqs.setGsi, Function.update_apply, Option.some.injEq, eq_comm]
    split <;> rfl

theorem mem_given :
    a ∈ (live.map (·.without v)).filter (·.vectors ≠ []) ↔ (∃ b ∈ live, b.without v = a) ∧ a.vectors ≠ [] := by
  simp only [List.mem_filter, List.mem_map, ne_eq, decide_eq_true_eq]

theorem mem_without : u ∈ (a.without v).vectors ↔ u ∈ a.vectors ∧ u ≠ v := by
  simp [Alloc.without]

theorem held_given :
    Held ((live.map (·.without v)).filter (·.vectors ≠ [])) u ↔ Held live u ∧ u ≠ v := by
  constructor
  · rintro ⟨a, ha, hu⟩
    obtain ⟨⟨b, hb, rfl⟩, -⟩ := mem_given.mp ha
    have := mem_without.mp hu
    exact ⟨⟨b, hb, this.1⟩, this.2⟩
  · rintro ⟨⟨b, hb, hu⟩, hne⟩
    have hmem := mem_without.mpr ⟨hu, hne⟩
    exact ⟨_, mem_given.mpr ⟨⟨b, hb, rfl⟩, List.ne_nil_of_mem hmem⟩, hmem⟩

theorem Sound.give (hs : w.Sound) (hi : i < irqMax) (hidle : (w.table.irqData i).handlers = []) :
    Sound ⟨(w.table.unlink i).setIrq i { (w.table.unlink i).irqData i with free := true },
      (w.live.map (·.without (48 + i))).filter (·.vectors ≠ [])⟩ where
  free j hj := by
    rw [held_given, ← hs.free j hj]
    simp only [Irqs.setIrq, Function.update_apply, unlink_irqData]
    by_cases hji : j = i
    · simp [hji]
    · simp only [if_neg hji]
      exact ⟨fun h => ⟨h, by omega⟩, fun h => h.1⟩
  inside a ha v hv := by
    obtain ⟨⟨b, hb, rfl⟩, -⟩ := mem_given.mp ha
    exact hs.inside b hb v (mem_without.mp hv).1
  apart := by
    refine List.Pairwise.filter _ (List.pairwise_map.mpr (hs.apart.imp fun h v hv hv' => ?_))
    exact h (mem_without.mp hv).1 (mem_without.mp hv').1
  linked g j hj := by
    have hlinked := hs.linked g j hj
    have hlinked' := hs.linked g i hi
    simp only [Irqs.setIrq, Function.update_apply, unlink_irqData, unlink_vector]
    by_cases hji : j = i
    · subst hji
      simp only [if_true]
      refine iff_of_false (fun h => Option.some_ne_none g h.symm) ?_
      split
      · omega
      · rwa [← hlinked]
    · simp only [if_neg hji]
      split
      · have := hlinked'.mp ‹_›
        rw [hlinked]
        omega
      · exact hlinked
  vector g h := by
    simp only [Irqs.setIrq, unlink_vector] at h ⊢
    split at h
    · exact absurd rfl h
    · have hlinked := hs.linked g i hi
      have hne : (w.table.gsiData g).vector ≠ 48 + i := fun hv => ‹¬_› (hlinked.mpr hv)
      rw [if_neg ‹_›]
      refine mem_given.mpr ⟨⟨_, hs.vector g h, ?_⟩, List.cons_ne_nil _ _⟩
      simp [Alloc.without, hne]
  owner a ha g hg := by
    obtain ⟨⟨b, hb, rfl⟩, hne⟩ := mem_given.mp ha
    obtain ⟨h0, hvec⟩ := hs.owner b hb g hg
    simp only [Irqs.setIrq, unlink_vector]
    have hnot : (w.table.irqData i).gsi ≠ some g := by
      intro h
      have hv := (hs.linked g i hi).mp h
      refine hne ?_
      simp [Alloc.without, hvec, hv]
    have hne' : (w.table.gsiData g).vector ≠ 48 + i := fun hv => hnot ((hs.linked g i hi).mpr hv)
    rw [if_neg hnot]
    refine ⟨h0, ?_⟩
    simp [Alloc.without, hvec, hne']
  idle j hf := by
    simp only [Irqs.setIrq, Function.update_apply, unlink_irqData] at hf ⊢
    by_cases hji : j = i
    · simp only [hji, if_true, hidle]
    · simp only [if_neg hji] at hf ⊢
      exact hs.idle j hf

theorem Sound.handlers (hs : w.Sound) (hi : (w.table.irqData i).free ≠ true) (handlers : List Nat) :
    Sound ⟨w.table.setIrq i { w.table.irqData i with handlers }, w.live⟩ where
  free j hj := by
    rw [← hs.free j hj]
    simp only [Irqs.setIrq, Function.update_apply]
    split
    · subst_vars
      rfl
    · rfl
  inside := hs.inside
  apart := hs.apart
  linked g j hj := by
    have hlinked := hs.linked g j hj
    simp only [Irqs.setIrq, Function.update_apply]
    split
    · subst_vars
      exact hlinked
    · exact hlinked
  vector := hs.vector
  owner := hs.owner
  idle j hf := by
    simp only [Irqs.setIrq, Function.update_apply] at hf ⊢
    split at hf
    · exact absurd hf hi
    · rw [if_neg ‹_›]
      exact hs.idle j hf

section
variable {op : IrqOp} {table : Irqs} {r : Int}

theorem step_of_call (h : w.table.call op = some (table, r)) : w.step op = ⟨table, grant w.live op r⟩ := by
  unfold step
  rw [h]

theorem Sound.right (hcall : w.table.call op = some (table, r)) (hnew : Sound ⟨table, grant w.live op r⟩)
    (hans : w.Answer op r) : w.Right op ∧ (w.step op).Sound := by
  rw [← step_of_call hcall] at hnew
  exact ⟨⟨⟨table, r, hcall, hans⟩, hnew.apart, hnew.linked⟩, hnew⟩

end

theorem getGsiItem_eq {s : Irqs} {id : Int} (h : s.getGsiItem id = some g) : id.toNat = g := by
  unfold Irqs.getGsiItem at h
  split at h
  · exact Option.some.inj h
  · cases h

theorem Sound.gsi (hs : w.Sound) (id : Int) : w.Right (.gsi apic id) ∧ (w.step (.gsi apic id)).Sound := by
  obtain ⟨table, r, hcall, hr⟩ := Irqs.irqAllocGsiVector_spec w.table apic id
  change w.table.call (.gsi apic id) = _ at hcall
  cases hr with
  | absent habsent => exact Sound.right hcall hs (.inl habsent)
  | full hno => exact Sound.right hcall hs (.inr (hs.no_block hno))
  | @shared g hid _ hv =>
    have hmem := hs.vector g hv
    have hgrant : grant w.live (.gsi apic id) (w.table.gsiData g).vector = w.live := by
      simp only [grant]
      rw [if_pos (.inr ⟨_, hmem, by rw [getGsiItem_eq hid]⟩)]
    refine Sound.right hcall (by rw [hgrant]; exact hs) ?_
    rw [Answer, if_pos (by omega), step_of_call hcall, hgrant, getGsiItem_eq hid]
    exact ⟨hmem, .inl hmem⟩
  | @new g i hid hv hb =>
    have hg := getGsiItem_eq hid
    have hnone : ¬∃ a ∈ w.live, a.gsi = some id.toNat := by
      rintro ⟨a, ha, hag⟩
      exact (hs.owner a ha g (hg ▸ hag)).1 hv
    have hi : i < irqMax := by have := hb.1; omega
    have hr : (48 + i : Int).toNat = 48 + i := by omega
    have hgrant : grant w.live (.gsi apic id) (48 + i) = w.live ++ [⟨some g, [48 + i]⟩] := by
      simp only [grant, hr]
      rw [if_neg (not_or.mpr ⟨by omega, hnone⟩), hg]
    have hnew := (hs.take apic hb).link (g := g) hi (by rw [Irqs.take_gsiData]; exact hv)
    refine Sound.right hcall (by rw [hgrant]; exact hnew) ?_
    rw [Answer, if_pos (by omega), step_of_call hcall, hgrant, hr, hg]
    exact ⟨List.mem_append_right _ (List.mem_singleton_self _), .inr (hs.block_iff.mp hb)⟩

theorem Sound.msi (hs : w.Sound) {num : BitVec 32} (h0 : num ≠ 0) :
    w.Right (.msi apic num) ∧ (w.step (.msi apic num)).Sound := by
  by_cases hpow : num &&& (num - 1) = 0
  · rcases Irqs.irqAllocMsiVectors_spec w.table apic hpow h0 with ⟨i, hcall, hb⟩ | ⟨hcall, hno⟩
    · have hr : (48 + i : Int).toNat = 48 + i := by omega
      have hgrant : grant w.live (.msi apic num) (48 + i) =
          w.live ++ [⟨none, List.range' (48 + i) num.toNat⟩] := by
        simp only [grant, hr]
        rw [if_neg (by omega)]
      refine Sound.right hcall (by rw [hgrant]; exact hs.take apic hb) ?_
      rw [Answer, if_pos (by omega), hr]
      exact hs.block_iff.mp hb
    · exact Sound.right hcall hs (.inr (hs.no_block hno))
  · have hcall : w.table.call (.msi apic num) = some (w.table, -EINVAL) := by
      simp only [Irqs.call, Irqs.irqAllocMsiVectors]
      rw [if_pos hpow]
    exact Sound.right hcall hs (.inl hpow)

theorem getIrqItem_cases (vector : Int) : Irqs.getIrqItem vector = none ∨
    ∃ i < irqMax, Irqs.getIrqItem vector = some i ∧ vector = 48 + i := by
  unfold Irqs.getIrqItem irqMax
  split
  · exact .inr ⟨_, by omega, rfl, by omega⟩
  · exact .inl rfl

theorem Sound.free_vector (hs : w.Sound) (vector : Int) : w.Right (.free vector) ∧ (w.step (.free vector)).Sound := by
  rcases getIrqItem_cases vector with hnone | ⟨i, hi, hitem, hv⟩
  · have hcall : w.table.call (.free vector) = some (w.table, -EINVAL) := by
      simp only [Irqs.call, Irqs.irqFreeVector, hnone]
    exact Sound.right hcall hs trivial
  · by_cases hbusy : 0 < (w.table.irqData i).handlers.length
    · have hcall : w.table.call (.free vector) = some (w.table, -EBUSY) := by
        simp only [Irqs.call, Irqs.irqFreeVector, hitem, if_pos hbusy]
      exact Sound.right hcall hs trivial
    · have hcall : w.table.call (.free vector) = some
          ((w.table.unlink i).setIrq i { (w.table.unlink i).irqData i with free := true }, 0) := by
        simp only [Irqs.call, Irqs.irqFreeVector, hitem, if_neg hbusy]
      refine Sound.right hcall ?_ trivial
      have hgrant : grant w.live (.free vector) 0 =
          (w.live.map (·.without (48 + i))).filter (·.vectors ≠ []) := by
        simp only [grant]
        rw [if_neg (by omega), show vector.toNat = 48 + i by omega]
      rw [hgrant]
      exact hs.give hi (List.length_eq_zero_iff.mp (Nat.eq_zero_of_not_pos hbusy))

/-- What `irq_request` and `irq_free` make of the tables: nothing, or other handlers of a vector that is in use. -/
def Rehandled (s' : Irqs) : Prop :=
  s' = s ∨ ∃ i handlers, (s.irqData i).free ≠ true ∧ s' = s.setIrq i { s.irqData i with handlers }

theorem irqRequest_rehandled (vector : Int) (mem : Bool) (data : Nat) :
    Rehandled s (s.irqRequest vector mem data).1 := by
  unfold Irqs.irqRequest
  split
  · exact .inl rfl
  · split_ifs with hf
    · exact .inl rfl
    · exact .inl rfl
    · exact .inr ⟨_, _, hf, rfl⟩

theorem irqFree_rehandled (vector : Int) (data : Nat) : Rehandled s (s.irqFree vector data).1 := by
  unfold Irqs.irqFree
  split
  · exact .inl rfl
  · split_ifs with hf
    · exact .inl rfl
    · exact .inl rfl
    · exact .inr ⟨_, _, hf, rfl⟩
    · exact .inl rfl

theorem Sound.rehandled (hs : w.Sound) (h : Rehandled w.table table) : Sound ⟨table, w.live⟩ := by
  rcases h with rfl | ⟨i, handlers, hf, rfl⟩
  · exact hs
  · exact hs.handlers hf handlers

def Empty : IrqOp → Prop
  | .msi _ num => num = 0
  | _ => False

theorem Sound.call (hs : w.Sound) (h : ¬Empty op) : w.Right op ∧ (w.step op).Sound := by
  cases op with
  | gsi apic id => exact hs.gsi id
  | msi apic num => exact hs.msi h
  | free vector => exact hs.free_vector vector
  | request vector mem data => exact Sound.right rfl (hs.rehandled (irqRequest_rehandled ..)) trivial
  | remove vector data => exact Sound.right rfl (hs.rehandled (irqFree_rehandled ..)) trivial

theorem not_right_of_empty (h : Empty op) : ¬w.Right op := by
  rintro ⟨⟨table, r, hcall, -⟩, -⟩
  cases op with
  | msi apic num =>
    cases h
    cases hcall
  | _ => exact h

/-- The calls give what the living allocations allow, and keep them apart and the links inverse, exactly as long as no
call asks for a block of no vectors. -/
theorem vectors_right_iff (gsiMax : Nat) (present : Nat → Bool) (ops : List IrqOp) :
    Along step Right (init gsiMax present) ops ↔ Along step (fun _ op => ¬Empty op) (init gsiMax present) ops := by
  refine Along.congr (I := Sound) (P := fun _ _ => True) (fun w op hs _ h => (hs.call h).2) (fun w op hs _ => ?_)
    (sound_init gsiMax present) (Along.of_forall fun _ _ => trivial)
  exact ⟨fun h he => not_right_of_empty he h, fun h => (hs.call h).1⟩

/-- A count of 0 passes the test for powers of two, although all vectors are free. -/
theorem empty_block_stops :
    (Irqs.init 16 fun _ => true).irqAllocMsiVectors (fun _ => 0) 0 = none ∧
      ¬(init 16 fun _ => true).Right (.msi (fun _ => 0) 0) :=
  ⟨rfl, not_right_of_empty rfl⟩

end World
end Novino.X86
