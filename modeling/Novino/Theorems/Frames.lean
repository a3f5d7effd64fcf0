import Novino.Mem.Pmm

/-! The allocator of frames keeps its books, and gives the lowest frame or run of frames that fits. -/

namespace Novino.Mem
open Words (bit_setBit bit_clrBit)

variable {s : Pmm} {address f g n : Nat}

def Pmm.Free (s : Pmm) (f : Nat) : Prop := f < 64 * s.maxIndex ∧ s.bitmap.bit f = true

theorem frame_mul (h : f < 2 ^ 32) : Pmm.frame (f * PAGE_SIZE) = f := by
  rw [Pmm.frame, Nat.mul_div_cancel _ (by decide), Nat.mod_eq_of_lt h]

theorem setFrame_eq (s : Pmm) (address : Nat) :
    (s.Free (Pmm.frame address) ∧ s.setFrame address = { s with
      bitmap := s.bitmap.clrBit (Pmm.frame address), freePages := (s.freePages + (2 ^ 32 - 1)) % 2 ^ 32 }) ∨
    (¬s.Free (Pmm.frame address) ∧ s.setFrame address = s) := by
  unfold Pmm.setFrame Pmm.Free
  dsimp only
  split
  · exact .inr ⟨fun h => by omega, rfl⟩
  · rename_i hlt
    split
    · rename_i hbit
      exact .inl ⟨⟨by omega, hbit⟩, rfl⟩
    · rename_i hbit
      exact .inr ⟨fun h => hbit h.2, rfl⟩

@[simp] theorem setFrame_maxIndex (s : Pmm) (address : Nat) : (s.setFrame address).maxIndex = s.maxIndex := by
  rcases setFrame_eq s address with ⟨-, h⟩ | ⟨-, h⟩ <;> rw [h]

theorem setFrame_free (s : Pmm) (address : Nat) :
    (s.setFrame address).Free g ↔ s.Free g ∧ g ≠ Pmm.frame address := by
  rcases setFrame_eq s address with ⟨-, h⟩ | ⟨hnot, h⟩
  · rw [h, Pmm.Free, Pmm.Free]
    simp [bit_clrBit, and_assoc]
  · rw [h]
    exact ⟨fun hg => ⟨hg, fun heq => hnot (heq ▸ hg)⟩, fun hg => hg.1⟩

theorem freeFrame_eq (s : Pmm) (address : Nat) : (64 * s.maxIndex ≤ Pmm.frame address ∧ s.freeFrame address = s) ∨
    (Pmm.frame address < 64 * s.maxIndex ∧ ∃ cur ≤ s.curIndex, cur ≤ Pmm.frame address / 64 ∧
      ((s.bitmap.bit (Pmm.frame address) = true ∧ s.freeFrame address = { s with curIndex := cur }) ∨
        (s.bitmap.bit (Pmm.frame address) = false ∧ s.freeFrame address = { s with
          curIndex := cur, bitmap := s.bitmap.setBit (Pmm.frame address), freePages :=
            (s.freePages + 1) % 2 ^ 32 }))) := by
  unfold Pmm.freeFrame
  dsimp only
  by_cases hmax : s.maxIndex ≤ Pmm.frame address / 64
  · exact .inl ⟨by omega, if_pos hmax⟩
  · rw [if_neg hmax]
    refine .inr ⟨by omega, ?_⟩
    by_cases hcur : Pmm.frame address / 64 < s.curIndex
    · refine ⟨Pmm.frame address / 64, hcur.le, le_rfl, ?_⟩
      rw [if_pos hcur]
      cases s.bitmap.bit (Pmm.frame address) with
      | true => exact .inl ⟨rfl, rfl⟩
      | false => exact .inr ⟨rfl, rfl⟩
    · refine ⟨s.curIndex, le_rfl, by omega, ?_⟩
      rw [if_neg hcur]
      cases hbit : s.bitmap.bit (Pmm.frame address) with
      | true => exact .inl ⟨rfl, rfl⟩
      | false => exact .inr ⟨rfl, rfl⟩

/-- The invariant of the allocator: the count of free frames, the words that the search leaves out, and the frames that
can be free at all. -/
structure Pmm.Kept (m : Nat) (s : Pmm) : Prop where
  max : s.maxIndex = m
  count : s.freePages = s.bitmap.ones (64 * m) % 2 ^ 32
  empty : ∀ f, f / 64 < s.curIndex → s.bitmap.bit f = false
  low : ∀ f, s.bitmap.bit f = true → f < 64 * m ∧ f < 2 ^ 32

variable {m : Nat}

theorem init_kept (m : Nat) : (Pmm.init m).Kept m := by
  have hbit : ∀ f, (Pmm.init m).bitmap.bit f = false := fun f => BitVec.getLsbD_zero
  refine ⟨rfl, ?_, fun f _ => hbit f, fun f hf => ?_⟩
  · have hones : (Pmm.init m).bitmap.ones (64 * m) = 0 := List.countP_eq_zero.mpr fun f _ => by simp [hbit f]
    rw [hones]
    rfl
  · rw [hbit] at hf
    cases hf

theorem Pmm.Kept.setFrame (h : s.Kept m) (address : Nat) : (s.setFrame address).Kept m := by
  rcases setFrame_eq s address with ⟨⟨hlt, hbit⟩, heq⟩ | ⟨-, heq⟩
  · rw [heq]
    have hones := Words.ones_clrBit s.bitmap hlt hbit
    rw [h.max] at hones
    refine ⟨h.max, ?_, fun f hf => ?_, fun f hf => ?_⟩
    · have := h.count
      dsimp only
      omega
    · dsimp only at hf ⊢
      rw [bit_clrBit, h.empty f hf, Bool.false_and]
    · dsimp only at hf
      rw [bit_clrBit, Bool.and_eq_true] at hf
      exact h.low f hf.1
  · rw [heq]
    exact h

theorem Pmm.Kept.freeFrame (h : s.Kept m) (address : Nat) : (s.freeFrame address).Kept m := by
  have hframe : Pmm.frame address < 2 ^ 32 := Nat.mod_lt _ (by decide)
  rcases freeFrame_eq s address with ⟨-, heq⟩ | ⟨hlt, cur, hcur, hle, ⟨-, heq⟩ | ⟨hbit, heq⟩⟩
  · rw [heq]
    exact h
  · rw [heq]
    exact ⟨h.max, h.count, fun f hf => h.empty f (lt_of_lt_of_le hf hcur), h.low⟩
  · rw [heq]
    have hones := Words.ones_setBit s.bitmap hlt hbit
    rw [h.max] at hones hlt
    refine ⟨h.max, ?_, fun f hf => ?_, fun f hf => ?_⟩
    · have := h.count
      dsimp only
      omega
    · dsimp only at hf ⊢
      have hne : f ≠ Pmm.frame address := fun heq => by
        rw [heq] at hf
        omega
      rw [bit_setBit, h.empty f (lt_of_lt_of_le hf hcur)]
      simp [hne]
    · dsimp only at hf
      rw [bit_setBit, Bool.or_eq_true, decide_eq_true_iff] at hf
      rcases hf with hf | rfl
      · exact h.low f hf
      · exact ⟨hlt, hframe⟩

theorem eachPage_keep {P : Pmm → Prop} {op : Pmm → Nat → Pmm} (hop : ∀ s addr, P s → P (op s addr)) (n addr : Nat)
    (h : P s) : P (Pmm.eachPage op n addr s) := by
  induction n generalizing addr s with
  | zero => exact h
  | succ n ih => exact ih _ (hop s addr h)

theorem Pmm.Kept.setReserved (h : s.Kept m) (start size : Nat) : (s.setReserved start size).Kept m :=
  eachPage_keep (fun _ address h => h.setFrame address) _ _ h

theorem Pmm.Kept.setAvailable (h : s.Kept m) (start size : Nat) : (s.setAvailable start size).Kept m := by
  unfold Pmm.setAvailable
  split
  · exact h
  · exact eachPage_keep (fun _ address h => h.freeFrame address) _ _ h

theorem allocLoop_spec (s : Pmm) (n i : Nat) (hempty : ∀ f, f / 64 < i → s.bitmap.bit f = false) :
    ((∀ f, f / 64 < i + n → s.bitmap.bit f = false) ∧ s.allocLoop n i = (s, 0)) ∨
    ∃ f, f / 64 < i + n ∧ s.bitmap.bit f = true ∧ (∀ g < f, s.bitmap.bit g = false) ∧
      s.allocLoop n i = ({ s.setFrame (f * PAGE_SIZE) with curIndex := f / 64 }, f * PAGE_SIZE) := by
  induction n generalizing i with
  | zero => exact .inl ⟨hempty, rfl⟩
  | succ n ih =>
    rw [Pmm.allocLoop]
    split
    · rename_i hzero
      have hnext : ∀ f, f / 64 < i + 1 → s.bitmap.bit f = false := fun f hf => by
        rcases Nat.lt_succ_iff_lt_or_eq.mp hf with hlt | heq
        · exact hempty f hlt
        · exact (Words.word_eq_zero_iff s.bitmap).mp hzero f heq
      rw [show i + (n + 1) = i + 1 + n by omega]
      exact ih (i + 1) hnext
    · rename_i hne
      obtain ⟨hlt, hbit, hmin⟩ := Words.ctz_spec hne
      have hf : (i * 64 + Words.ctz (s.bitmap i)) / 64 = i := by omega
      refine .inr ⟨i * 64 + Words.ctz (s.bitmap i), by omega, ?_, fun g hg => ?_, ?_⟩
      · rw [Nat.mul_comm, Words.bit_word _ hlt]
        exact hbit
      · by_cases hgi : g / 64 < i
        · exact hempty g hgi
        · have hj := hmin (g - 64 * i) (by omega)
          rw [← Words.bit_word _ (by omega)] at hj
          rwa [show 64 * i + (g - 64 * i) = g by omega] at hj
      · rw [hf]

theorem Pmm.Kept.allocFrame_cases (h : s.Kept m) : ((∀ f, ¬s.Free f) ∧ s.allocFrame = (s, 0)) ∨
    ∃ f, s.Free f ∧ (∀ g < f, s.bitmap.bit g = false) ∧
      s.allocFrame = ({ s.setFrame (f * PAGE_SIZE) with curIndex := f / 64 }, f * PAGE_SIZE) := by
  have hend : ∀ {f}, s.bitmap.bit f = true → f / 64 < s.curIndex + (s.maxIndex - s.curIndex) := fun {f} hf => by
    have hlow := (h.low f hf).1
    have hmax := h.max
    have hcur : ¬f / 64 < s.curIndex := fun hlt => by
      rw [h.empty f hlt] at hf
      cases hf
    omega
  rcases allocLoop_spec s (s.maxIndex - s.curIndex) s.curIndex h.empty with ⟨hnone, heq⟩ | ⟨f, -, hbit, hmin, heq⟩
  · refine .inl ⟨fun f hf => ?_, heq⟩
    have hbit := hf.2
    rw [hnone f (hend hbit)] at hbit
    cases hbit
  · exact .inr ⟨f, ⟨h.max ▸ (h.low f hbit).1, hbit⟩, hmin, heq⟩

theorem Pmm.Kept.allocFrame (h : s.Kept m) : s.allocFrame.1.Kept m := by
  rcases h.allocFrame_cases with ⟨-, heq⟩ | ⟨f, -, hmin, heq⟩
  · rw [heq]
    exact h
  · rw [heq]
    have hset := h.setFrame (f * PAGE_SIZE)
    refine ⟨hset.max, hset.count, fun g hg => ?_, hset.low⟩
    dsimp only at hg ⊢
    have hg : s.bitmap.bit g = false := hmin g (by omega)
    rcases setFrame_eq s (f * PAGE_SIZE) with ⟨-, hs⟩ | ⟨-, hs⟩
    · rw [hs, bit_clrBit, hg, Bool.false_and]
    · rw [hs]
      exact hg

theorem framesLoop_cases (s : Pmm) (num align n k count start : Nat) :
    s.framesLoop num align n k count start = none ∨ s.framesLoop num align n k count start = some (s, 0) ∨
    ∃ a size, s.framesLoop num align n k count start = some (s.setReserved a size, a) := by
  induction n generalizing k count start with
  | zero => exact .inr (.inl rfl)
  | succ n ih =>
    rw [Pmm.framesLoop]
    dsimp only
    split
    · generalize (if count = 0 then k * PAGE_SIZE else start) = a
      split
      · exact .inl rfl
      · generalize (if a % align = 0 then count + 1 else 0) = c
        split
        · exact .inr (.inr ⟨_, _, rfl⟩)
        · exact ih _ _ _
    · exact ih _ _ _

theorem Pmm.Kept.allocFrames (h : s.Kept m) (num align : Nat) :
    (((s.allocFrames num align).map Prod.fst).getD s).Kept m := by
  unfold Pmm.allocFrames
  split
  · exact h
  split
  · exact h
  · rcases framesLoop_cases s num (align * PAGE_SIZE % 2 ^ 32) (64 * s.maxIndex - 64 * s.curIndex) (64 * s.curIndex) 0 0
      with heq | heq | ⟨a, size, heq⟩
    · rw [heq]
      exact h
    · rw [heq]
      exact h
    · rw [heq]
      exact h.setReserved a size

theorem Pmm.Kept.step (h : s.Kept m) (op : FrameOp) : (s.step op).Kept m := by
  cases op with
  | alloc => exact h.allocFrame
  | allocMany num align => exact h.allocFrames num align
  | free address => exact h.freeFrame address
  | available start size => exact h.setAvailable start size
  | reserve start size => exact h.setReserved start size

theorem Pmm.Kept.run (h : s.Kept m) (ops : List FrameOp) : (ops.foldl Pmm.step s).Kept m := by
  induction ops generalizing s with
  | nil => exact h
  | cons op ops ih => exact ih (h.step op)

/-- The books are right: the number of free frames, the words before the hint, and what one allocation does. -/
structure Pmm.Accounted (s : Pmm) : Prop where
  count : s.freePages = s.bitmap.ones (64 * s.maxIndex)
  empty : ∀ i < s.curIndex, s.bitmap i = 0
  lowest : ¬s.Free 0 → s.allocFrame.2 ≠ 0 → ∃ f, s.allocFrame.2 = f * PAGE_SIZE ∧ s.Free f ∧ (∀ g < f, ¬s.Free g) ∧
    ∀ g, s.allocFrame.1.Free g ↔ s.Free g ∧ g ≠ f
  exhausted : ¬s.Free 0 → s.allocFrame.2 = 0 → ∀ f, ¬s.Free f

theorem Pmm.Kept.accounted (h : s.Kept m) (hm : m < 2 ^ 26) : s.Accounted := by
  refine ⟨?_, fun i hi => ?_, fun _ hne => ?_, fun h0 heq => ?_⟩
  · have hle := s.bitmap.ones_le (64 * m)
    rw [h.count, h.max, Nat.mod_eq_of_lt (by omega)]
  · exact (Words.word_eq_zero_iff s.bitmap).mpr fun f hf => h.empty f (hf ▸ hi)
  · rcases h.allocFrame_cases with ⟨-, heq⟩ | ⟨f, hf, hmin, heq⟩
    · rw [heq] at hne
      exact absurd rfl hne
    · rw [heq]
      refine ⟨f, rfl, hf, fun g hg hfree => ?_, fun g => ?_⟩
      · have hbit := hfree.2
        rw [hmin g hg] at hbit
        cases hbit
      · have hset := setFrame_free s (f * PAGE_SIZE) (g := g)
        rwa [frame_mul (h.low f hf.2).2] at hset
  · rcases h.allocFrame_cases with ⟨hnone, -⟩ | ⟨f, hf, -, hres⟩
    · exact hnone
    · rw [hres] at heq
      rcases Nat.mul_eq_zero.mp heq with rfl | hpage
      · exact absurd hf h0
      · exact absurd hpage (by decide)

def freeAll (n : Nat) : List FrameOp := (List.range n).map fun f => .free (f * PAGE_SIZE)

theorem freeAll_free (hn : n ≤ 2 ^ 32) (hm : n ≤ 64 * m) (hf : f < n) :
    ((freeAll n).foldl Pmm.step (Pmm.init m)).bitmap.bit f = true := by
  induction n with
  | zero => omega
  | succ n ih =>
    have hkept := (init_kept m).run (freeAll n)
    have hsucc : freeAll (n + 1) = freeAll n ++ [.free (n * PAGE_SIZE)] := by
      rw [freeAll, List.range_succ, List.map_append, freeAll]
      rfl
    rw [hsucc, List.foldl_append]
    show ((List.foldl Pmm.step (Pmm.init m) (freeAll n)).freeFrame (n * PAGE_SIZE)).bitmap.bit f = true
    have hold : f < n → ((freeAll n).foldl Pmm.step (Pmm.init m)).bitmap.bit f = true :=
      ih (by omega) (by omega)
    have hframe : Pmm.frame (n * PAGE_SIZE) = n := frame_mul (by omega)
    rcases freeFrame_eq ((freeAll n).foldl Pmm.step (Pmm.init m)) (n * PAGE_SIZE) with
      ⟨hle, -⟩ | ⟨-, cur, -, -, ⟨hbit, heq⟩ | ⟨-, heq⟩⟩
    · rw [hframe, hkept.max] at hle
      omega
    · rw [heq]
      rw [hframe] at hbit
      rcases Nat.lt_succ_iff_lt_or_eq.mp hf with hlt | rfl
      · exact hold hlt
      · exact hbit
    · rw [heq, hframe, bit_setBit]
      rcases Nat.lt_succ_iff_lt_or_eq.mp hf with hlt | rfl
      · rw [hold hlt, Bool.true_or]
      · simp

theorem freeAll_wraps (hm : 2 ^ 26 ≤ m) :
    let s := (freeAll (2 ^ 32)).foldl Pmm.step (Pmm.init m)
    s.freePages = 0 ∧ s.bitmap.ones (64 * s.maxIndex) = 2 ^ 32 := by
  intro s
  have hkept : s.Kept m := (init_kept m).run _
  have hall : ∀ f < 2 ^ 32, s.bitmap.bit f = true := fun f hf => freeAll_free le_rfl (by omega) hf
  have hones : s.bitmap.ones (64 * m) = 2 ^ 32 := by
    rw [s.bitmap.ones_eq (show 2 ^ 32 ≤ 64 * m by omega), s.bitmap.ones_eq_self hall]
    intro f hf
    by_contra hbit
    have := (hkept.low f (by simpa using hbit)).2
    omega
  refine ⟨?_, by rw [hkept.max]; exact hones⟩
  rw [hkept.count, hones, Nat.mod_self]

/-- The books are right after every sequence of operations exactly if there are less than 2 ^ 32 frames. -/
theorem frames_accounted_iff (m : Nat) :
    (∀ ops : List FrameOp, (ops.foldl Pmm.step (Pmm.init m)).Accounted) ↔ m < 2 ^ 26 := by
  constructor
  · intro h
    by_contra hm
    obtain ⟨hzero, hones⟩ := freeAll_wraps (not_lt.mp hm)
    have hcount := (h (freeAll (2 ^ 32))).count
    rw [hzero, hones] at hcount
    omega
  · exact fun hm ops => ((init_kept m).run ops).accounted hm

/-- The number of free pages has 32 bits, and wraps when as many pages are free. -/
theorem free_pages_wrap : ¬((freeAll (2 ^ 32)).foldl Pmm.step (Pmm.init (2 ^ 26))).Accounted := by
  intro h
  obtain ⟨hzero, hones⟩ := freeAll_wraps (le_refl (2 ^ 26))
  have hcount := h.count
  rw [hzero, hones] at hcount
  omega

def Pmm.RunAt (s : Pmm) (num align f : Nat) : Prop := align ∣ f ∧ ∀ k < num, s.Free (f + k)

def Pmm.First (s : Pmm) (num align f : Nat) : Prop := s.RunAt num align f ∧ ∀ g < f, ¬s.RunAt num align g

variable {num align k count start : Nat}

theorem mul_page_mod (f a : Nat) : f * PAGE_SIZE % (a * PAGE_SIZE) = 0 ↔ a ∣ f := by
  rw [Nat.mul_mod_mul_right, Nat.mul_eq_zero, or_iff_left (by decide)]
  exact (Nat.dvd_iff_mod_eq_zero ..).symm

/-- The search at frame `k`: a run of `count` frames ends there, and no run starts at any frame before it. -/
structure Pmm.Searching (s : Pmm) (num align k count start : Nat) : Prop where
  short : count < num
  le : count ≤ k
  start_eq : count ≠ 0 → start = (k - count) * PAGE_SIZE ∧ align ∣ k - count
  free : ∀ g, k - count ≤ g → g < k → s.bitmap.bit g = true
  before : ∀ g < k - count, align ∣ g → ∃ h, g ≤ h ∧ h < g + num ∧ s.bitmap.bit h = false

theorem Pmm.Searching.no_run (h : s.Searching num align k count start) {g : Nat} (hg : g < k - count) :
    ¬s.RunAt num align g := by
  intro hrun
  obtain ⟨x, hgx, hx, hused⟩ := h.before g hg hrun.1
  have hfree := (hrun.2 (x - g) (by omega)).2
  rw [show g + (x - g) = x by omega, hused] at hfree
  cases hfree

theorem Pmm.Searching.none (h : s.Searching num align (64 * s.maxIndex) count start) (g : Nat) :
    ¬s.RunAt num align g := by
  intro hrun
  have hlast := (hrun.2 (num - 1) (by have := h.short; omega)).1
  by_cases hg : g < 64 * s.maxIndex - count
  · exact h.no_run hg hrun
  · have := h.short
    omega

theorem Pmm.Searching.used (h : s.Searching num align k count start) (hk : s.bitmap.bit k = false) :
    s.Searching num align (k + 1) 0 start := by
  refine ⟨by have := h.short; omega, Nat.zero_le _, fun h => absurd rfl h, fun g hg hlt => absurd hlt (by omega),
    fun g hg hdvd => ?_⟩
  by_cases hlt : g < k - count
  · exact h.before g hlt hdvd
  · exact ⟨k, by omega, by have := h.short; omega, hk⟩

def runStart (k count start : Nat) : Nat := if count = 0 then k * PAGE_SIZE else start

section
variable (h : s.Searching num align k count start)
include h

theorem Pmm.Searching.runStart_eq : runStart k count start = (k - count) * PAGE_SIZE := by
  unfold runStart
  split
  · rename_i hzero
    rw [hzero, Nat.sub_zero]
  · rename_i hne
    exact (h.start_eq hne).1

theorem Pmm.Searching.misaligned (hdvd : ¬align ∣ k - count) (start' : Nat) :
    s.Searching num align (k + 1) 0 start' := by
  have hzero : count = 0 := by
    by_contra hne
    exact hdvd (h.start_eq hne).2
  subst hzero
  refine ⟨h.short, Nat.zero_le _, fun h => absurd rfl h, fun g hg hlt => absurd hlt (by omega), fun g hg hg' => ?_⟩
  rcases Nat.lt_succ_iff_lt_or_eq.mp (show g < k + 1 by omega) with hlt | rfl
  · exact h.before g (by omega) hg'
  · exact absurd hg' hdvd

theorem Pmm.Searching.longer (hdvd : align ∣ k - count) (hk : s.bitmap.bit k = true) (hne : count + 1 ≠ num) :
    s.Searching num align (k + 1) (count + 1) ((k - count) * PAGE_SIZE) := by
  have hsub : k + 1 - (count + 1) = k - count := by omega
  refine ⟨by have := h.short; omega, Nat.succ_le_succ h.le, fun _ => ⟨by rw [hsub], by rwa [hsub]⟩,
    fun g hg hlt => ?_, ?_⟩
  · rcases Nat.lt_succ_iff_lt_or_eq.mp hlt with hlt | rfl
    · exact h.free g (by omega) hlt
    · exact hk
  · rw [hsub]
    exact h.before

theorem Pmm.Searching.found (hdvd : align ∣ k - count)
    (hk : s.bitmap.bit k = true) (hend : k < 64 * s.maxIndex) (heq : count + 1 = num) :
    s.First num align (k - count) := by
  have hle := h.le
  refine ⟨⟨hdvd, fun i hi => ⟨by omega, ?_⟩⟩, fun g hg => h.no_run hg⟩
  by_cases hlt : k - count + i < k
  · exact h.free _ (by omega) hlt
  · rw [show k - count + i = k by omega]
    exact hk

end

theorem framesLoop_spec {a : Nat} (ha : 0 < a) (hk : k + n = 64 * s.maxIndex)
    (h : s.Searching num a k count start) :
    (s.framesLoop num (a * PAGE_SIZE) n k count start = some (s, 0) ∧ ∀ f, ¬s.RunAt num a f) ∨
    ∃ f, s.First num a f ∧ s.framesLoop num (a * PAGE_SIZE) n k count start =
      some (s.setReserved (f * PAGE_SIZE) (num * PAGE_SIZE % 2 ^ 32), f * PAGE_SIZE) := by
  induction n generalizing k count start with
  | zero =>
    obtain rfl : k = 64 * s.maxIndex := hk
    exact .inl ⟨rfl, h.none⟩
  | succ n ih =>
    rw [Pmm.framesLoop]
    dsimp only
    split
    · rename_i hbit
      rw [if_neg (Nat.mul_ne_zero ha.ne' (by decide)), show (if count = 0 then k * PAGE_SIZE else start) =
        (k - count) * PAGE_SIZE from h.runStart_eq]
      by_cases hdvd : a ∣ k - count
      · rw [if_pos ((mul_page_mod _ _).mpr hdvd)]
        split
        · rename_i heq
          exact .inr ⟨k - count, h.found hdvd hbit (by omega) heq, by rw [heq]⟩
        · rename_i hne
          exact ih (by omega) (h.longer hdvd hbit hne)
      · rw [if_neg fun hmod => hdvd ((mul_page_mod _ _).mp hmod), if_neg (by have := h.short; omega)]
        exact ih (by omega) (h.misaligned hdvd _)
    · rename_i hbit
      exact ih (by omega) (h.used (by simpa using hbit))

theorem framesLoop_zero (s : Pmm) (num n k count start : Nat) :
    (s.framesLoop num 0 n k count start = some (s, 0) ∧ ∀ f, k ≤ f → f < k + n → s.bitmap.bit f = false) ∨
    (s.framesLoop num 0 n k count start = none ∧ ∃ f < k + n, s.bitmap.bit f = true) := by
  induction n generalizing k count start with
  | zero => exact .inl ⟨rfl, fun f h₁ h₂ => by omega⟩
  | succ n ih =>
    rw [Pmm.framesLoop]
    split
    · rename_i hbit
      exact .inr ⟨rfl, k, by omega, hbit⟩
    · rename_i hbit
      rcases ih (k + 1) 0 start with ⟨heq, hnone⟩ | ⟨heq, f, hf, hfree⟩
      · refine .inl ⟨heq, fun f hkf hf => ?_⟩
        rcases Nat.eq_or_lt_of_le hkf with rfl | hlt
        · simpa using hbit
        · exact hnone f hlt (by omega)
      · exact .inr ⟨heq, f, by omega, hfree⟩

theorem setFrames_free (n f : Nat) (s : Pmm) : (Pmm.eachPage Pmm.setFrame n (f * PAGE_SIZE) s).maxIndex = s.maxIndex ∧
    ∀ g, (Pmm.eachPage Pmm.setFrame n (f * PAGE_SIZE) s).Free g ↔ s.Free g ∧ ∀ i < n, g ≠ (f + i) % 2 ^ 32 := by
  induction n generalizing f s with
  | zero => exact ⟨rfl, fun g => ⟨fun h => ⟨h, fun i hi => by omega⟩, fun h => h.1⟩⟩
  | succ n ih =>
    have hnext : f * PAGE_SIZE + PAGE_SIZE = (f + 1) * PAGE_SIZE := (Nat.succ_mul ..).symm
    have hframe : Pmm.frame (f * PAGE_SIZE) = f % 2 ^ 32 := by rw [Pmm.frame, Nat.mul_div_cancel _ (by decide)]
    rw [Pmm.eachPage, hnext]
    obtain ⟨hmax, hfree⟩ := ih (f + 1) (s.setFrame (f * PAGE_SIZE))
    refine ⟨hmax.trans (setFrame_maxIndex _ _), fun g => ?_⟩
    rw [hfree, setFrame_free, hframe, and_assoc]
    refine and_congr_right fun _ =>
      ⟨fun ⟨h0, hrest⟩ i hi => ?_, fun h => ⟨by simpa using h 0 (by omega), fun i hi => ?_⟩⟩
    · cases i with
      | zero => exact h0
      | succ i => simpa [Nat.add_assoc, Nat.add_comm 1] using hrest i (by omega)
    · simpa [Nat.add_assoc, Nat.add_comm 1] using h (i + 1) (by omega)

theorem setReserved_free (hf : f < 2 ^ 50) (g : Nat) :
    (s.setReserved (f * PAGE_SIZE) (num * PAGE_SIZE % 2 ^ 32)).Free g ↔
      s.Free g ∧ ∀ i < num % 2 ^ 20, g ≠ (f + i) % 2 ^ 32 := by
  have hsize : num * PAGE_SIZE % 2 ^ 32 = num % 2 ^ 20 * PAGE_SIZE := by
    unfold PAGE_SIZE
    omega
  have hlt : num % 2 ^ 20 < 2 ^ 20 := Nat.mod_lt _ (by decide)
  have hend : (f * PAGE_SIZE + num % 2 ^ 20 * PAGE_SIZE) % 2 ^ 64 = (f + num % 2 ^ 20) * PAGE_SIZE := by
    rw [← Nat.add_mul]
    refine Nat.mod_eq_of_lt ?_
    unfold PAGE_SIZE
    omega
  have hup : alignUp ((f + num % 2 ^ 20) * PAGE_SIZE) = (f + num % 2 ^ 20) * PAGE_SIZE := if_pos (Nat.mul_mod_left ..)
  have hdown : alignDown (f * PAGE_SIZE) = f * PAGE_SIZE := by
    rw [alignDown, Nat.mul_div_cancel _ (by decide)]
  have hcount : ((f + num % 2 ^ 20) * PAGE_SIZE - f * PAGE_SIZE) / PAGE_SIZE = num % 2 ^ 20 := by
    rw [← Nat.sub_mul, Nat.mul_div_cancel _ (by decide)]
    omega
  unfold Pmm.setReserved
  dsimp only
  rw [hsize, hend, hup, hdown, hcount]
  exact (setFrames_free _ f s).2 g

/-- `pmm_alloc_frames` takes the lowest run, and gives 0 only if there is none. -/
def Pmm.TakesRun (s : Pmm) (num align : Nat) : Prop := ∃ s' r, s.allocFrames num align = some (s', r) ∧
  (r ≠ 0 → ∃ f, r = f * PAGE_SIZE ∧ s.First num align f ∧ ∀ g, s'.Free g ↔ s.Free g ∧ ¬(f ≤ g ∧ g < f + num)) ∧
  (r = 0 → ∀ f, ¬s.RunAt num align f)

/-- The numbers fit into 32 bits. The alignment that the code works with is that of `align % 2 ^ 20` pages: it is not 0,
unless no frame is free, and it leads to the same run. -/
def Pmm.Fits (s : Pmm) (num align : Nat) : Prop :=
  if align % 2 ^ 20 = 0 then ∀ f, ¬s.Free f
  else (∀ f, s.First num (align % 2 ^ 20) f → f ≠ 0 ∧ s.First num align f ∧ num < 2 ^ 20 ∧ f + num ≤ 2 ^ 32) ∧
    ((∀ f, ¬s.RunAt num (align % 2 ^ 20) f) → ∀ f, ¬s.RunAt num align f)

theorem Pmm.First.unique (h : s.First num align f) (h' : s.First num align g) : f = g := by
  rcases Nat.lt_trichotomy f g with hlt | heq | hlt
  · exact absurd h.1 (h'.2 f hlt)
  · exact heq
  · exact absurd h'.1 (h.2 g hlt)

theorem taken_iff (hnum : 0 < num) (hf : f < 2 ^ 50) (hrun : ∀ k < num, s.Free (f + k)) :
    (∀ g, (s.setReserved (f * PAGE_SIZE) (num * PAGE_SIZE % 2 ^ 32)).Free g ↔ s.Free g ∧ ¬(f ≤ g ∧ g < f + num)) ↔
      num < 2 ^ 20 ∧ f + num ≤ 2 ^ 32 := by
  constructor
  · intro h
    -- the last frame of the run is not free any more
    have hlast := hrun (num - 1) (by omega)
    have hused : ¬(s.setReserved (f * PAGE_SIZE) (num * PAGE_SIZE % 2 ^ 32)).Free (f + (num - 1)) := fun hfree =>
      ((h _).mp hfree).2 ⟨by omega, by omega⟩
    rw [setReserved_free hf] at hused
    have hex : ∃ i < num % 2 ^ 20, f + (num - 1) = (f + i) % 2 ^ 32 := by
      by_contra hno
      exact hused ⟨hlast, fun i hi heq => hno ⟨i, hi, heq⟩⟩
    obtain ⟨i, hi, heq⟩ := hex
    omega
  · rintro ⟨hsmall, hend⟩ g
    rw [setReserved_free hf, Nat.mod_eq_of_lt hsmall]
    refine and_congr_right fun _ => ⟨fun h hg => ?_, fun h i hi heq => ?_⟩
    · refine h (g - f) (by omega) ?_
      rw [Nat.mod_eq_of_lt (by omega)]
      omega
    · rw [Nat.mod_eq_of_lt (by omega)] at heq
      exact h ⟨by omega, by omega⟩

theorem not_runAt_of_full (hnum : 0 < num) (h : ∀ f, ¬s.Free f) (f : Nat) : ¬s.RunAt num align f := fun hrun =>
  h _ (hrun.2 0 hnum)

theorem fits_of_full (hnum : 0 < num) (h : ∀ f, ¬s.Free f) : s.Fits num align := by
  unfold Pmm.Fits
  split
  · exact h
  · exact ⟨fun f hf => absurd hf.1 (not_runAt_of_full hnum h f), fun _ => not_runAt_of_full hnum h⟩

theorem takesRun_of_full (hnum : 0 < num) (h : ∀ f, ¬s.Free f) (heq : s.allocFrames num align = some (s, 0)) :
    s.TakesRun num align :=
  ⟨s, 0, heq, fun hne => absurd rfl hne, fun _ => not_runAt_of_full hnum h⟩

/-- For every bitmap whose words before the hint are empty, the call takes the lowest run exactly if the numbers fit. -/
theorem alloc_frames_iff (s : Pmm) (num align : Nat) (hmax : s.maxIndex < 2 ^ 32)
    (hempty : ∀ i < s.curIndex, s.bitmap i = 0) (hnum : 0 < num) (halign : 0 < align) :
    s.TakesRun num align ↔ s.Fits num align := by
  have hused : ∀ f, f < 64 * s.curIndex → s.bitmap.bit f = false := fun f hf =>
    (Words.word_eq_zero_iff s.bitmap).mp (hempty (f / 64) (by omega)) f rfl
  have hbytes : align * PAGE_SIZE % 2 ^ 32 = align % 2 ^ 20 * PAGE_SIZE := by
    unfold PAGE_SIZE
    omega
  have hcall : s.allocFrames num align = s.framesLoop num (align % 2 ^ 20 * PAGE_SIZE)
      (64 * s.maxIndex - 64 * s.curIndex) (64 * s.curIndex) 0 0 := by
    rw [Pmm.allocFrames, if_neg hnum.ne', if_neg halign.ne', hbytes]
  by_cases hcur : s.maxIndex < s.curIndex
  · -- all words lie before the hint
    have hno : ∀ f, ¬s.Free f := fun f hf => by
      have hbit := hf.2
      rw [hused f (by have := hf.1; omega)] at hbit
      cases hbit
    have hloop : s.allocFrames num align = some (s, 0) := by
      rw [hcall, Nat.sub_eq_zero_of_le (by omega)]
      rfl
    exact ⟨fun _ => fits_of_full hnum hno, fun _ => takesRun_of_full hnum hno hloop⟩
  have hrange : 64 * s.curIndex + (64 * s.maxIndex - 64 * s.curIndex) = 64 * s.maxIndex := by omega
  unfold Pmm.TakesRun Pmm.Fits
  rw [hcall]
  split
  · rename_i hzero
    rw [hzero, Nat.zero_mul]
    rcases framesLoop_zero s num (64 * s.maxIndex - 64 * s.curIndex) (64 * s.curIndex) 0 0 with
      ⟨heq, hnone⟩ | ⟨heq, f, hf, hfree⟩
    · have hno : ∀ f, ¬s.Free f := fun f hf => by
        have hbit := hf.2
        by_cases hlt : f < 64 * s.curIndex
        · rw [hused f hlt] at hbit
          cases hbit
        · rw [hnone f (by omega) (by rw [hrange]; exact hf.1)] at hbit
          cases hbit
      exact ⟨fun _ => hno, fun _ => ⟨s, 0, heq, fun h => absurd rfl h, fun _ => not_runAt_of_full hnum hno⟩⟩
    · constructor
      · rintro ⟨s', r, hres, -⟩
        rw [heq] at hres
        cases hres
      · exact fun hno => absurd ⟨by rw [← hrange]; exact hf, hfree⟩ (hno f)
  · rename_i hne
    have hstart : s.Searching num (align % 2 ^ 20) (64 * s.curIndex) 0 0 :=
      ⟨hnum, Nat.zero_le _, fun h => absurd rfl h, fun g h₁ h₂ => by omega,
        fun g hg _ => ⟨g, le_rfl, by omega, hused g hg⟩⟩
    rcases framesLoop_spec (Nat.pos_of_ne_zero hne) hrange hstart with ⟨heq, hnone⟩ | ⟨f, hfirst, heq⟩
    · rw [heq]
      constructor
      · rintro ⟨s', r, hres, -, hzero⟩
        cases hres
        exact ⟨fun f hf => absurd hf.1 (hnone f), fun _ => hzero rfl⟩
      · exact fun h => ⟨s, 0, rfl, fun h => absurd rfl h, fun _ => h.2 hnone⟩
    · have hf : f < 2 ^ 50 := by
        have := (hfirst.1.2 0 hnum).1
        omega
      have hpage : PAGE_SIZE ≠ 0 := by decide
      rw [heq]
      constructor
      · rintro ⟨s', r, hres, htaken, hzero⟩
        cases hres
        have hf0 : f ≠ 0 := fun h0 => by
          subst h0
          exact hzero (Nat.zero_mul _) 0 ⟨Nat.dvd_zero _, hfirst.1.2⟩
        obtain ⟨f', hf', hfirst', hfree⟩ := htaken (Nat.mul_ne_zero hf0 hpage)
        obtain rfl : f = f' := Nat.eq_of_mul_eq_mul_right (Nat.pos_of_ne_zero hpage) hf'
        refine ⟨fun g hg => ?_, fun hno => absurd hfirst.1 (hno f)⟩
        obtain rfl := hfirst.unique hg
        obtain ⟨hsmall, hend⟩ := (taken_iff hnum hf hfirst.1.2).mp hfree
        exact ⟨hf0, hfirst', hsmall, hend⟩
      · intro h
        obtain ⟨hf0, hfirst', hsmall, hend⟩ := h.1 f hfirst
        refine ⟨_, _, rfl, fun _ => ⟨f, rfl, hfirst', (taken_iff hnum hf hfirst.1.2).mpr ⟨hsmall, hend⟩⟩,
          fun hzero => ?_⟩
        exact absurd hzero (Nat.mul_ne_zero hf0 hpage)

theorem fits_small (hnum : num < 2 ^ 20) (hpos : 0 < num) (halign : align < 2 ^ 20) (hpos' : 0 < align)
    (hmax : s.maxIndex ≤ 2 ^ 26) (hzero : ¬s.Free 0) : s.Fits num align := by
  have hmod : align % 2 ^ 20 = align := Nat.mod_eq_of_lt halign
  unfold Pmm.Fits
  rw [hmod, if_neg hpos'.ne']
  refine ⟨fun f hf => ⟨fun h0 => ?_, hf, hnum, ?_⟩, fun h => h⟩
  · subst h0
    exact hzero (hf.1.2 0 hpos)
  · have := (hf.1.2 (num - 1) (by omega)).1
    omega

theorem alloc_frames_pair : Pmm.TakesRun ⟨fun i => if i = 0 then 0x1E#64 else 0, 1, 0, 4⟩ 2 2 := by
  refine (alloc_frames_iff _ 2 2 (by decide) (fun i hi => absurd hi (Nat.not_lt_zero i)) (by decide) (by decide)).mpr ?_
  exact fits_small (by decide) (by decide) (by decide) (by decide) (by decide) fun h => absurd h.2 (by decide)

/-- The first frame is the only free one: it is taken, and the result says that there is none. -/
theorem first_frame_lost :
    let s : Pmm := ⟨fun i => if i = 0 then 1#64 else 0, 1, 0, 1⟩
    s.RunAt 1 1 0 ∧ (s.allocFrames 1 1).map (fun r => (r.2, r.1.bitmap 0)) = some (0, 0) ∧ ¬s.TakesRun 1 1 := by
  intro s
  have hrun : s.RunAt 1 1 0 := by
    refine ⟨Nat.dvd_zero _, fun k hk => ?_⟩
    obtain rfl : k = 0 := by omega
    exact ⟨by decide, by decide⟩
  have hres : (s.allocFrames 1 1).map (fun r => (r.2, r.1.bitmap 0)) = some (0, 0) := by decide
  refine ⟨hrun, hres, fun h => ?_⟩
  obtain ⟨s', r, heq, -, hzero⟩ := h
  rw [heq] at hres
  obtain ⟨hr, -⟩ := Prod.mk.inj (Option.some.inj hres)
  exact hzero hr 0 hrun

end Novino.Mem
