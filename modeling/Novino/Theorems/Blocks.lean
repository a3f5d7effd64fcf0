import Novino.Theorems.Groups
import Novino.Theorems.BestFit

/-! Allocating and freeing blocks: the bitmaps and counters, and when freeing gives back what was allocated. -/

namespace Novino.Ext2
open State

variable (sb : Superblock) (V : Image)

def Superblock.allocated (g p n : Nat) : Image :=
  V.mark sb g (sb.blockBitmap V g) (·.setBits p n) Bgd.freeBlocks (2 ^ 16 - n % 2 ^ 16)

def Superblock.freed (g p n : Nat) : Image :=
  V.mark sb g (sb.blockBitmap V g) (·.clrBits p n) Bgd.freeBlocks n

/-- The best fit for a request of `count` blocks in group `g` starts at bit `p` and has length `len`. -/
def Superblock.BestRun (g count p len : Nat) : Prop :=
  Runs.BestFit count (Runs.Run (freeBit (V (sb.blockBitmap V g))) (stopBit (V (sb.blockBitmap V g)))
    (8 * sb.blockSize)) p len

inductive Allocated (s s' : State) (bg count start : Nat) : AllocOut → Prop
  | ok {g p len : Nat} (serves : s.sb.Serves s.view (s.sb.groupFreeBlocks s.view) bg g)
      (best : s.sb.BestRun s.view g count p len)
      (counted : Counted s s' (s.sb.allocated s.view g p (min len count)) (sub32 s.freeBlocks (min len count))
        s.freeInodes) :
      Allocated s s' bg count start
        { status := (min len count : Nat), bg := g, count := count - min len count,
          start := add32 p (g * s.sb.blocksPerGroup) }
  | full (quiet : Quiet s s') (none : ∀ g, ¬s.sb.Serves s.view (s.sb.groupFreeBlocks s.view) bg g) :
      Allocated s s' bg count start { status := -ENOSPC, bg, count, start }
  | fail {e : Int} (quiet : Quiet s s') (errno : s'.errno < 0) (status : e = s'.errno) (broken : ¬s.Works) :
      Allocated s s' bg count start { status := e, bg, count, start }

variable {s s' t u : State} {g b p n : Nat} {L : Layout s.sb}

theorem markUsed_counted (p n : Nat) (hb : s.Ready b) (hb' : s.Dirty b)
    (hg : s.Ready (s.sb.bgdAddr g).block) (hg' : s.Dirty (s.sb.bgdAddr g).block) :
    Counted s (markUsed s (s.sb.bgdAddr g) b p n)
      (s.view.mark s.sb g b (·.setBits p n) Bgd.freeBlocks (2 ^ 16 - n % 2 ^ 16)) (sub32 s.freeBlocks n)
      s.freeInodes :=
  counted_mark hb hb' hg hg' (sub32 · n) id

theorem blocksAlloc_spec (s : State) {count : Nat} (hc : 0 < count) (bg start : Nat) :
    ∃ s' out, blocksAlloc s bg count start = (s', out) ∧ Allocated s s' bg count start out ∧
      (out.status < 0 → Fault s out.status ∨ ∀ g, ¬s.sb.Serves s.view (s.sb.groupFreeBlocks s.view) bg g) := by
  obtain ⟨s₁, r, heq, hr, hnone⟩ := pickGroup_spec s bg Bgd.freeBlocks
  unfold blocksAlloc
  rw [if_neg (by omega), heq]
  cases hr with
  | fail q e hst w => exact ⟨s₁, _, rfl, .fail q e hst w, fun _ => hnone _ rfl⟩
  | full q hn => exact ⟨s₁, _, rfl, .full q hn, fun _ => .inr hn⟩
  | @ok g q hs r d =>
    have hbm : s₁.u32 (s.sb.bgdAddr g) Bgd.blockBitmap = s.sb.blockBitmap s.view g := q.bgd32 r _
    simp only [hbm]
    obtain ⟨s₂, ok, heq₂, hf, hfault⟩ := readCached_spec s₁ (s.sb.blockBitmap s.view g) true
    simp only [heq₂]
    cases hf with
    | fail q₂ e w =>
      exact ⟨s₂, _, rfl, .fail (q.trans q₂) e rfl fun h => w (q.works h), fun _ => .inl ((hfault rfl).of_core q.toCore)⟩
    | ok q₂ r₂ d₂ =>
      have hq := q.trans q₂
      simp only [State.data_eq_view r₂, hq.view, hq.sb]
      refine ⟨_, _, rfl, .ok hs (scan_best hc _ _) ?_, fun h => absurd h (by simp)⟩
      have hm := markUsed_counted (g := g)
        (scan count (s.view (s.sb.blockBitmap s.view g)) s.sb.blockSize).bestStart
        (min (scan count (s.view (s.sb.blockBitmap s.view g)) s.sb.blockSize).bestCount count) r₂ (d₂ rfl)
        (by rw [hq.sb]; exact q₂.ready _ r) (by rw [hq.sb]; exact q₂.dirty _ d)
      rw [hq.sb, hq.view, hq.freeBlocks, hq.freeInodes] at hm
      exact hq.edit.counted hm

theorem markFree_moved (p n : Nat) (hb : s.Ready b) (hb' : s.Dirty b)
    (hg : s.Ready (s.sb.bgdAddr g).block) (hg' : s.Dirty (s.sb.bgdAddr g).block) :
    Moved s (markFree s (s.sb.bgdAddr g) b p n) (s.view.mark s.sb g b (·.clrBits p n) Bgd.freeBlocks n)
      (add32 s.freeBlocks n) s.freeInodes ∧
    (n = 0 ∨ p + n ≤ 8 * s.sb.blockSize → Flags s (markFree s (s.sb.bgdAddr g) b p n)) ∧
    (s.oob = true → (markFree s (s.sb.bgdAddr g) b p n).oob = true) := by
  by_cases hn : n = 0 ∨ p + n ≤ 8 * s.sb.blockSize
  · have hc := counted_mark (f := (·.clrBits p n)) (o := Bgd.freeBlocks) (d := n) hb hb' hg hg' (add32 · n) id
    rw [markFree, State.bound, if_pos (decide_eq_true hn)]
    exact ⟨hc.toMoved, fun _ => hc.toFlags, hc.oob.trans⟩
  · have hc := counted_mark (s := { s with oob := true }) (f := (·.clrBits p n)) (o := Bgd.freeBlocks) (d := n) hb hb'
      hg hg' (add32 · n) id
    rw [markFree, State.bound, if_neg (mt of_decide_eq_true hn)]
    exact ⟨hc.toMoved.of_oob, fun h => absurd h hn, fun _ => hc.oob⟩

inductive Freed (s s' : State) (start count : Nat) : Int → Prop
  | ok {g p : Nat} (group : g = sub32 start s.sb.firstDataBlock / s.sb.blocksPerGroup)
      (pos : p = sub32 start s.sb.firstDataBlock % s.sb.blocksPerGroup)
      (moved : Moved s s' (s.sb.freed s.view g p count) (add32 s.freeBlocks count) s.freeInodes)
      (flags : count = 0 ∨ p + count ≤ 8 * s.sb.blockSize → Flags s s') (sticky : s.oob = true → s'.oob = true) :
      Freed s s' start count 0
  | fail {e : Int} (quiet : Quiet s s') (errno : s'.errno < 0) (status : e = s'.errno) (broken : ¬s.Works) :
      Freed s s' start count e

theorem blocksFree_spec (s : State) (start count : Nat) :
    ∃ s' st, blocksFree s start count = (s', st) ∧ Freed s s' start count st := by
  unfold blocksFree
  dsimp only
  obtain ⟨g, hg⟩ : ∃ g, g = sub32 start s.sb.firstDataBlock / s.sb.blocksPerGroup := ⟨_, rfl⟩
  obtain ⟨p, hp⟩ : ∃ p, p = sub32 start s.sb.firstDataBlock % s.sb.blocksPerGroup := ⟨_, rfl⟩
  rw [← hg, ← hp]
  obtain ⟨s₁, r, heq, hr, -⟩ := bgdRead_spec s g true
  rw [heq]
  cases hr with
  | fail q e w => exact ⟨s₁, _, rfl, .fail q e rfl w⟩
  | ok q r d =>
    have hbm : s₁.u32 (s.sb.bgdAddr g) Bgd.blockBitmap = s.sb.blockBitmap s.view g := q.bgd32 r _
    simp only [hbm]
    obtain ⟨s₂, ok, heq₂, hf, -⟩ := readCached_spec s₁ (s.sb.blockBitmap s.view g) true
    simp only [heq₂]
    cases hf with
    | fail q₂ e w => exact ⟨s₂, _, rfl, .fail (q.trans q₂) e rfl fun h => w (q.works h)⟩
    | ok q₂ r₂ d₂ =>
      have hq := q.trans q₂
      have r₃ := q₂.ready _ r
      have d₃ := q₂.dirty _ (d rfl)
      rw [← hq.sb] at r₃ d₃
      have hm := markFree_moved p count r₂ (d₂ rfl) r₃ d₃
      rw [hq.sb, hq.view, hq.freeBlocks, hq.freeInodes] at hm
      exact ⟨_, _, rfl, .ok hg hp (hq.edit.moved hm.1) (fun hn => hq.toFlags.trans (hm.2.1 hn))
        fun ho => hm.2.2 (hq.oob.trans ho)⟩

/-! ### The bitmaps after an allocation -/

section Images
variable {sb : Superblock} {L : Layout sb} {V : Image} {g g' : Nat}

section
variable (h : Described L V) (hg : g < sb.groups)
include h hg

theorem Described.blockBit (p : Nat) : sb.blockBit V g p = (V (L.blockBitmap g)).bit p := by
  rw [Superblock.blockBit, h.blockBitmap g hg]

theorem Described.allocated (p n : Nat) : Described L (sb.allocated V g p n) := by
  unfold Superblock.allocated
  rw [h.blockBitmap g hg]
  exact h.mark hg (fun g' hg' => L.blockBitmap_ne hg hg') (by decide) (by decide)

theorem Described.freed (p n : Nat) : Described L (sb.freed V g p n) := by
  unfold Superblock.freed
  rw [h.blockBitmap g hg]
  exact h.mark hg (fun g' hg' => L.blockBitmap_ne hg hg') (by decide) (by decide)

section
variable (hg' : g' < sb.groups)
include hg'

theorem blockBit_allocated (p n q : Nat) :
    sb.blockBit (sb.allocated V g p n) g' q = (sb.blockBit V g' q || decide (g' = g ∧ p ≤ q ∧ q < p + n)) := by
  rw [(h.allocated hg p n).blockBit hg', h.blockBit hg', Superblock.allocated, h.blockBitmap g hg,
    mark_blockBitmap hg hg']
  split
  · rename_i heq
    rw [Block.bit_setBits, heq]
    simp
  · rename_i hne
    simp [hne]

theorem blockBit_freed (p n q : Nat) :
    sb.blockBit (sb.freed V g p n) g' q = (sb.blockBit V g' q && !decide (g' = g ∧ p ≤ q ∧ q < p + n)) := by
  rw [(h.freed hg p n).blockBit hg', h.blockBit hg', Superblock.freed, h.blockBitmap g hg, mark_blockBitmap hg hg']
  split
  · rename_i heq
    rw [Block.bit_clrBits, heq]
    simp
  · rename_i hne
    simp [hne]

theorem groupFreeBlocks_allocated (p n : Nat) : sb.groupFreeBlocks (sb.allocated V g p n) g' =
      if g' = g then (sb.groupFreeBlocks V g + (2 ^ 16 - n % 2 ^ 16)) % 65536 else sb.groupFreeBlocks V g' := by
  rw [Superblock.allocated, h.blockBitmap g hg, groupFreeBlocks_mark hg hg']

theorem groupFreeBlocks_freed (p n : Nat) : sb.groupFreeBlocks (sb.freed V g p n) g' =
      if g' = g then (sb.groupFreeBlocks V g + n) % 65536 else sb.groupFreeBlocks V g' := by
  rw [Superblock.freed, h.blockBitmap g hg, groupFreeBlocks_mark hg hg']

end

end

theorem freed_zero (sb : Superblock) (V : Image) (g p : Nat) : sb.freed V g p 0 = V := by
  rw [Superblock.freed]
  exact mark_self V sb g _ _

end Images

/-! ### Only free blocks are handed out -/

/-- What an allocation promises: the bits that it sets are those of the run it returns, which were clear. -/
structure AllocSafe (s s' : State) (out : AllocOut) : Prop where
  sets : 0 ≤ out.status → ∀ g < s.sb.groups, ∀ q, s.sb.blockBit s'.view g q = (s.sb.blockBit s.view g q ||
    decide (g = out.bg ∧ out.start - out.bg * s.sb.blocksPerGroup ≤ q ∧
      q < out.start - out.bg * s.sb.blocksPerGroup + out.status.toNat))
  clear : ∀ k < out.status.toNat,
    s.sb.blockBit s.view out.bg (out.start - out.bg * s.sb.blocksPerGroup + k) = false
  free : ∀ k < out.status.toNat, s.sb.FreeBlock s.view (out.start + k)

/-- When an allocation keeps its promise: no full byte lies in the range that is taken, and the first data block is
block zero. With block one first, the blocks are off by one. -/
def Superblock.AllocSound (bg count : Nat) : Prop :=
  0 < count → ∀ g p len, sb.Serves V (sb.groupFreeBlocks V) bg g → sb.BestRun V g count p len → len ≠ 0 →
    ¬FullByteIn (V (sb.blockBitmap V g)) p (min len count) ∧
      (sb.firstDataBlock = 0 ∨ p = 0 ∧ 0 < g ∧ sb.blockBit V (g - 1) (sb.blocksPerGroup - 1) = false)

section Runs
variable {sb : Superblock} {L : Layout sb} {V : Image} {g count p len : Nat}

section
variable (h : sb.BestRun V g count p len) (hl : len ≠ 0)
include h hl

theorem Superblock.BestRun.run :
    Runs.Run (freeBit (V (sb.blockBitmap V g))) (stopBit (V (sb.blockBitmap V g))) (8 * sb.blockSize) p len :=
  Runs.BestFit.run h hl

theorem Superblock.BestRun.first_free : sb.blockBit V g p = false :=
  (h.run hl).elim (·.1.1) (·.1.1)

theorem Superblock.BestRun.extent : p + len ≤ 8 * sb.blockSize :=
  (run_extent (h.run hl)).1

theorem Superblock.BestRun.start_lt (vol : Volume L V)
    (hg : g < sb.groups) : p < sb.blocksPerGroup ∧ sb.firstDataBlock + g * sb.blocksPerGroup + p < 2 ^ 32 := by
  have hext := h.extent hl
  have := vol.padded g hg p (by omega) (h.first_free hl)
  have := L.total_lt
  omega

theorem Superblock.BestRun.add32 (vol : Volume L V)
    (hg : g < sb.groups) : add32 p (g * sb.blocksPerGroup) = g * sb.blocksPerGroup + p := by
  have := (h.start_lt hl vol hg).2
  rw [Ext2.add32, Nat.mod_eq_of_lt (by omega), Nat.add_comm]

theorem Superblock.BestRun.clear_iff : (∀ k < min len count, sb.blockBit V g (p + k) = false) ↔
      ¬FullByteIn (V (sb.blockBitmap V g)) p (min len count) :=
  run_free_iff (h.run hl) (Nat.min_le_left len count)

end

theorem group_pos {bpg g q : Nat} (hq : q < bpg) : (g * bpg + q) / bpg = g ∧ (g * bpg + q) % bpg = q := by
  rw [Nat.mul_comm]
  exact ⟨by rw [Nat.mul_add_div (by omega), Nat.div_eq_of_lt hq, Nat.add_zero],
    by rw [Nat.mul_add_mod, Nat.mod_eq_of_lt hq]⟩

theorem Superblock.BestRun.free_iff (h : sb.BestRun V g count p len) (hl : len ≠ 0) (hc : 0 < count)
    (vol : Volume L V) (hg : g < sb.groups) (hfirst : sb.firstDataBlock ≤ 1)
    (hclear : ∀ k < min len count, sb.blockBit V g (p + k) = false) :
    (∀ k < min len count, sb.FreeBlock V (g * sb.blocksPerGroup + p + k)) ↔
      sb.firstDataBlock = 0 ∨ p = 0 ∧ 0 < g ∧ sb.blockBit V (g - 1) (sb.blocksPerGroup - 1) = false := by
  have hext := h.extent hl
  have hlt : ∀ k < min len count, p + k < sb.blocksPerGroup := fun k hk =>
    (vol.padded g hg (p + k) (by omega) (hclear k hk)).1
  have hp : p < sb.blocksPerGroup := (h.start_lt hl vol hg).1
  have hfree : ∀ b g' q, b = sb.firstDataBlock + (g' * sb.blocksPerGroup + q) → q < sb.blocksPerGroup →
      (sb.FreeBlock V b ↔ sb.blockBit V g' q = false) := by
    intro b g' q hb hq
    have hsub : b - sb.firstDataBlock = g' * sb.blocksPerGroup + q := by omega
    rw [Superblock.FreeBlock, hsub, (group_pos hq).1, (group_pos hq).2]
    exact and_iff_right (by omega)
  -- the block before the first one of group `g`
  have hprev : 0 < g → g * sb.blocksPerGroup = 1 + ((g - 1) * sb.blocksPerGroup + (sb.blocksPerGroup - 1)) := by
    intro h0
    obtain ⟨g₁, rfl⟩ := Nat.exists_eq_add_of_lt h0
    simp only [Nat.zero_add, Nat.add_sub_cancel, Nat.add_mul, Nat.one_mul]
    omega
  rcases (show sb.firstDataBlock = 0 ∨ sb.firstDataBlock = 1 by omega) with hz | hone
  · refine iff_of_true (fun k hk => ?_) (.inl hz)
    exact (hfree _ g (p + k) (by omega) (hlt k hk)).mpr (hclear k hk)
  · rw [hone, or_iff_right (by omega : ¬1 = 0)]
    constructor
    · intro hall
      have h0 := hall 0 (by omega)
      by_cases hp0 : p = 0
      · subst hp0
        have hg0 : 0 < g := by
          by_contra hg0
          have := h0.1
          simp [hone, show g = 0 by omega] at this
        have := hprev hg0
        exact ⟨rfl, hg0, (hfree _ (g - 1) _ (by omega) (by omega)).mp h0⟩
      · -- the block before the run is used
        have hused := bit_before ((h.run hl).elim (·.1) (·.1)) (by omega)
        have := (hfree _ g (p - 1) (by omega) (by omega)).mp h0
        rw [Superblock.blockBit, hused] at this
        simp at this
    · rintro ⟨rfl, hg0, hlast⟩ k hk
      have := hprev hg0
      by_cases hk0 : k = 0
      · exact (hfree _ (g - 1) (sb.blocksPerGroup - 1) (by omega) (by omega)).mpr hlast
      · have hk' := hclear (k - 1) (by omega)
        rw [Nat.zero_add] at hk'
        exact (hfree _ g (k - 1) (by omega) (by have := hlt k hk; omega)).mpr hk'

end Runs

theorem blocksAlloc_zero (s : State) (bg start : Nat) :
    blocksAlloc s bg 0 start = (s, { status := 0, bg, count := 0, start }) := rfl

theorem AllocSafe.of_quiet {out : AllocOut} (q : Quiet s s') (h : out.status ≤ 0) :
    AllocSafe s s' out := by
  have hz : out.status.toNat = 0 := by omega
  refine ⟨fun _ g _ q' => ?_, fun k hk => by omega, fun k hk => by omega⟩
  rw [q.view, hz, decide_eq_false (by omega), Bool.or_false]

theorem allocSafe_run (vol : Volume L s.view) {left : Nat} (hg : g < s.sb.groups)
    (hview : s'.view = s.sb.allocated s.view g p n) :
    AllocSafe s s' { status := n, bg := g, count := left, start := g * s.sb.blocksPerGroup + p } ↔
      (∀ k < n, s.sb.blockBit s.view g (p + k) = false) ∧
        ∀ k < n, s.sb.FreeBlock s.view (g * s.sb.blocksPerGroup + p + k) := by
  have hsub : g * s.sb.blocksPerGroup + p - g * s.sb.blocksPerGroup = p := by omega
  constructor
  · rintro ⟨-, hc, hf⟩
    simp only [Int.toNat_natCast, hsub] at hc hf
    exact ⟨hc, hf⟩
  · rintro ⟨hc, hf⟩
    refine ⟨fun _ g' hg' q => ?_, ?_, ?_⟩ <;> simp only [Int.toNat_natCast, hsub]
    · rw [hview, blockBit_allocated vol.toDescribed hg hg']
    · exact hc
    · exact hf

/-- `ext2_blocks_alloc` hands out only free blocks exactly when its best fit search picks no full byte and the first
data block does not shift it. -/
theorem blocksAlloc_safe_iff (s : State) (L : Layout s.sb) (vol : Volume L s.view) (hfirst : s.sb.firstDataBlock ≤ 1)
    (bg count start : Nat) (hbg : bg < s.sb.groups) :
    (s.sb.AllocSound s.view bg count →
      AllocSafe s (blocksAlloc s bg count start).1 (blocksAlloc s bg count start).2) ∧
    (s.Works → AllocSafe s (blocksAlloc s bg count start).1 (blocksAlloc s bg count start).2 →
      s.sb.AllocSound s.view bg count) := by
  by_cases hc : 0 < count
  · obtain ⟨s', out, heq, hout, -⟩ := blocksAlloc_spec s hc bg start
    rw [heq]
    cases hout with
    | fail q e hst w =>
      exact ⟨fun _ => .of_quiet q (by dsimp only; omega), fun h => absurd h w⟩
    | full q hn =>
      exact ⟨fun _ => .of_quiet q (by simp [ENOSPC]), fun _ _ _ g p len hs => absurd hs (hn g)⟩
    | @ok g p len hs hbest hcnt =>
      have hg : g < s.sb.groups := hs.lt vol hbg
      by_cases hl : len = 0
      · subst hl
        have hview : s'.view = s.sb.allocated s.view g p 0 := by simpa using hcnt.view
        refine ⟨fun _ => ⟨fun _ g' hg' q => ?_, by simp, by simp⟩, fun _ _ _ g' p' len' hs' hb' hl' => ?_⟩
        · rw [hview, blockBit_allocated vol.toDescribed hg hg']
          congr 1
          simp only [Nat.zero_min, Nat.cast_zero, Int.toNat_zero, Nat.add_zero, decide_eq_decide]
          omega
        · cases hs'.unique hs
          exact absurd (Runs.BestFit.run hb' hl') (Runs.BestFit.none hbest rfl p' len')
      · have hstart := hbest.add32 hl vol hg
        rw [hstart, allocSafe_run vol hg hcnt.view, hbest.clear_iff hl]
        constructor
        · intro hsound
          obtain ⟨hfull, hfdb⟩ := hsound hc g p len hs hbest hl
          exact ⟨hfull, (hbest.free_iff hl hc vol hg hfirst ((hbest.clear_iff hl).mpr hfull)).mpr hfdb⟩
        · rintro - ⟨hfull, hfree⟩ - g' p' len' hs' hb' hl'
          cases hs'.unique hs
          obtain ⟨rfl, rfl⟩ := Runs.BestFit.unique hb' hbest hl'
          exact ⟨hfull, (hbest.free_iff hl hc vol hg hfirst ((hbest.clear_iff hl).mpr hfull)).mp hfree⟩
  · rw [show count = 0 by omega, blocksAlloc_zero]
    exact ⟨fun _ => .of_quiet (Quiet.refl s) (Int.le_refl 0), fun _ _ h => absurd h (by omega)⟩

def oneGroup : Superblock where
  totalBlocks := 32
  firstDataBlock := 0
  logBlockSize := 2
  blocksPerGroup := 32
  inodesPerGroup := 32
  inodeSize := 128
  featuresRequired := 0
  log_le := Nat.le_of_ble_eq_true rfl
  first_lt := Nat.le_of_ble_eq_true rfl
  blocks_pos := Nat.le_of_ble_eq_true rfl
  inodes_pos := Nat.le_of_ble_eq_true rfl
  inodeSize_ge := Nat.le_of_ble_eq_true rfl
  inodeSize_dvd := ⟨32, rfl⟩
  table_le := Nat.le_of_ble_eq_true rfl

def oneGroupLayout : Layout oneGroup :=
  oneGroup.packedLayout (by decide) (by decide) (by decide) (by decide) (by decide) (by decide)

def splitBitmap : Block := fun i => if i = 0 then 0x7F else if i = 2 then 0xFE else 0xFF

def splitVolume : State :=
  State.mounted oneGroup (oneGroup.packedImage (fun _ => 2) (fun _ => 0) (fun _ => splitBitmap) (fun _ _ => 0xFF)
    fun _ => Block.zero) 2 0

theorem splitVolume_volume : Volume oneGroupLayout splitVolume.view where
  blockBitmap := by decide
  inodeBitmap := by decide
  inodeTable := by decide
  padded g hg p _ hp := by
    obtain rfl : g = 0 := Nat.lt_one_iff.mp hg
    have hlt : p < 32 := by
      by_contra hge
      have hfull : splitBitmap (p / 8) = 0xFF#8 := by
        rw [splitBitmap, if_neg (by omega), if_neg (by omega)]
        rfl
      exact absurd ((bit_of_full hfull).symm.trans hp) (by decide)
    exact ⟨hlt, by simpa [oneGroup] using hlt⟩
  inodePadded g hg p _ hp := by
    obtain rfl : g = 0 := Nat.lt_one_iff.mp hg
    have hset : Block.bit (fun _ => 0xFF#8) p = true := bit_of_full rfl
    exact absurd (hset.symm.trans hp) (by decide)
  behind := by decide

theorem blocksAlloc_safe_one :
    AllocSafe splitVolume (blocksAlloc splitVolume 0 1 0).1 (blocksAlloc splitVolume 0 1 0).2 := by
  refine (blocksAlloc_safe_iff splitVolume oneGroupLayout splitVolume_volume (by decide) 0 1 0 (by decide)).1 ?_
  rintro - g p len - - -
  refine ⟨?_, .inl rfl⟩
  rintro ⟨i, h₁, h₂, -⟩
  omega

/-- A request of two blocks is served with blocks 7 and 8, and block 8 is in use. -/
theorem blocksAlloc_takes_used :
    (blocksAlloc splitVolume 0 2 0).2 = { status := 2, bg := 0, count := 0, start := 7 } ∧
      ¬AllocSafe splitVolume (blocksAlloc splitVolume 0 2 0).1 (blocksAlloc splitVolume 0 2 0).2 := by
  have hout : (blocksAlloc splitVolume 0 2 0).2 = { status := 2, bg := 0, count := 0, start := 7 } := by
    decide +kernel
  refine ⟨hout, fun h => ?_⟩
  have hclear := h.clear 1 (by rw [hout]; decide)
  rw [hout] at hclear
  exact absurd hclear (by decide +kernel)

/-! ### Freeing what was allocated -/

structure BlocksRestored (s t : State) : Prop where
  bitmaps : ∀ g < s.sb.groups, ∀ q, s.sb.blockBit t.view g q = s.sb.blockBit s.view g q
  counters : ∀ g < s.sb.groups, s.sb.groupFreeBlocks t.view g = s.sb.groupFreeBlocks s.view g
  total : t.freeBlocks = s.freeBlocks

def FreeRestores (s : State) (bg count start : Nat) : Prop :=
  0 ≤ (blocksAlloc s bg count start).2.status → BlocksRestored s (blocksFree (blocksAlloc s bg count start).1
    (blocksAlloc s bg count start).2.start (blocksAlloc s bg count start).2.status.toNat).1

theorem add32_sub32 {a : Nat} (h : a < 2 ^ 32) (n : Nat) : add32 (sub32 a n) n = a := by
  unfold add32 sub32
  omega

theorem BlocksRestored.of_clear (h : Described L s.view)
    (hg : g < s.sb.groups) (hfb : s.freeBlocks < 2 ^ 32) (hclear : ∀ k < n, s.sb.blockBit s.view g (p + k) = false)
    (ht : t.view = s.sb.allocated s.view g p n) (ht' : t.freeBlocks = sub32 s.freeBlocks n)
    (hu : u.view = s.sb.freed t.view g p n) (hu' : u.freeBlocks = add32 t.freeBlocks n) : BlocksRestored s u := by
  have hd : Described L t.view := ht ▸ h.allocated hg p n
  refine ⟨fun g' hg' q => ?_, fun g' hg' => ?_, by rw [hu', ht', add32_sub32 hfb]⟩
  · rw [hu, blockBit_freed hd hg hg', ht, blockBit_allocated h hg hg']
    by_cases hin : g' = g ∧ p ≤ q ∧ q < p + n
    · obtain ⟨rfl, h₁, h₂⟩ := hin
      have := hclear (q - p) (by omega)
      rw [show p + (q - p) = q by omega] at this
      simp [this, h₁, h₂]
    · simp [hin]
  · rw [hu, groupFreeBlocks_freed hd hg hg', ht, groupFreeBlocks_allocated h hg hg', groupFreeBlocks_allocated h hg hg]
    split
    · rename_i heq
      subst heq
      rw [if_pos rfl]
      have : s.sb.groupFreeBlocks s.view g' < 65536 := Block.rd16_lt _ _
      omega
    · rfl

theorem BlocksRestored.same_run (h : Described L s.view) {g' p' : Nat}
    (hg : g < s.sb.groups) (hg' : g' < s.sb.groups) (hn : 0 < n) (hfree : s.sb.blockBit s.view g p = false)
    (hused : 0 < p → s.sb.blockBit s.view g (p - 1) = true) (hle : g' = g → p' ≤ p)
    (ht : t.view = s.sb.allocated s.view g p n) (hu : u.view = s.sb.freed t.view g' p' n) (hr : BlocksRestored s u) :
    g' = g ∧ p' = p ∧ ∀ k < n, s.sb.blockBit s.view g (p + k) = false := by
  have hd : Described L t.view := ht ▸ h.allocated hg p n
  have hbit : ∀ q, s.sb.blockBit s.view g q = ((s.sb.blockBit s.view g q || decide (p ≤ q ∧ q < p + n)) &&
      !decide (g = g' ∧ p' ≤ q ∧ q < p' + n)) := by
    intro q
    have := hr.bitmaps g hg q
    rw [hu, blockBit_freed hd hg' hg, ht, blockBit_allocated h hg hg] at this
    simpa using this.symm
  -- the first bit of the run is clear again
  have hp := hbit p
  have hin : g = g' ∧ p' ≤ p ∧ p < p' + n := by
    by_contra hout
    rw [hfree, decide_eq_true (by omega : p ≤ p ∧ p < p + n), decide_eq_false hout] at hp
    simp at hp
  have heq : p' = p := by
    by_contra hne
    have := hle hin.1.symm
    have := hbit (p - 1)
    rw [hused (by omega), decide_eq_true (by omega : g = g' ∧ p' ≤ p - 1 ∧ p - 1 < p' + n)] at this
    simp at this
  refine ⟨hin.1.symm, heq, fun k hk => ?_⟩
  have := hbit (p + k)
  rw [decide_eq_true (by omega : g = g' ∧ p' ≤ p + k ∧ p + k < p' + n)] at this
  simpa using this

theorem BlocksRestored.of_none (w : s.Works) (hfb : s.freeBlocks < 2 ^ 32) (start : Nat) :
    BlocksRestored s (blocksFree s start 0).1 := by
  obtain ⟨u, st, heq, hf⟩ := blocksFree_spec s start 0
  rw [heq]
  cases hf with
  | fail _ _ _ hw => exact absurd w hw
  | ok _ _ hm _ =>
    have hview := hm.view
    have htot := hm.freeBlocks
    rw [freed_zero] at hview
    refine ⟨fun _ _ _ => by rw [hview], fun _ _ => by rw [hview], ?_⟩
    rw [htot, add32, Nat.add_zero, Nat.mod_eq_of_lt hfb]

/-- `ext2_blocks_free` gives back what `ext2_blocks_alloc` took exactly when the first data block is block zero and no
full byte was picked. -/
theorem free_restores_iff (s : State) (w : s.Works) (L : Layout s.sb) (vol : Volume L s.view)
    (hfb : s.freeBlocks < 2 ^ 32) (bg count start : Nat) (hbg : bg < s.sb.groups)
    (hfirst : ∀ g < s.sb.groups, ∀ p < 8 * s.sb.blockSize, s.sb.blockBit s.view g p = false →
      s.sb.firstDataBlock ≤ g * s.sb.blocksPerGroup + p) :
    FreeRestores s bg count start ↔
      (0 < count → ∀ g p len, s.sb.Serves s.view (s.sb.groupFreeBlocks s.view) bg g →
        s.sb.BestRun s.view g count p len → len ≠ 0 →
          s.sb.firstDataBlock = 0 ∧ ¬FullByteIn (s.view (s.sb.blockBitmap s.view g)) p (min len count)) := by
  unfold FreeRestores
  by_cases hc : 0 < count
  · obtain ⟨t, out, heq, hout, -⟩ := blocksAlloc_spec s hc bg start
    rw [heq]
    cases hout with
    | fail _ _ _ hw => exact absurd w hw
    | full q hn => exact iff_of_true (fun h => by simp [ENOSPC] at h) fun _ g p len hs => absurd hs (hn g)
    | @ok g p len hs hbest hcnt =>
      have hg : g < s.sb.groups := hs.lt vol hbg
      obtain ⟨u, st, heq', hf⟩ := blocksFree_spec t (add32 p (g * s.sb.blocksPerGroup)) (min len count)
      simp only [Int.toNat_natCast, heq', Int.natCast_nonneg, forall_const]
      cases hf with
      | fail _ _ _ hw => exact absurd (hcnt.works w) hw
      | @ok g' p' hg' hp' hm _ =>
        have hview := hm.view
        have htot := hm.freeBlocks
        rw [hcnt.sb] at hg' hp' hview
        by_cases hl : len = 0
        · subst hl
          simp only [Nat.zero_min] at hview htot hcnt
          rw [freed_zero, ← freed_zero s.sb t.view g p] at hview
          refine iff_of_true (.of_clear vol.toDescribed hg hfb (by omega) hcnt.view hcnt.freeBlocks hview htot) ?_
          intro _ g₁ p₁ len₁ hs₁ hb₁ hl₁
          cases hs₁.unique hs
          exact absurd (Runs.BestFit.run hb₁ hl₁) (Runs.BestFit.none hbest rfl p₁ len₁)
        · obtain ⟨hp, hlt⟩ := hbest.start_lt hl vol hg
          have hext := hbest.extent hl
          have hge := hfirst g hg p (by omega) (hbest.first_free hl)
          have hsub : sub32 (add32 p (g * s.sb.blocksPerGroup)) s.sb.firstDataBlock =
              g * s.sb.blocksPerGroup + p - s.sb.firstDataBlock := by
            have := s.sb.first_lt
            rw [hbest.add32 hl vol hg, sub32]
            omega
          rw [hsub] at hg' hp'
          constructor
          · intro hr _ g₁ p₁ len₁ hs₁ hb₁ hl₁
            cases hs₁.unique hs
            obtain ⟨rfl, rfl⟩ := Runs.BestFit.unique hb₁ hbest hl₁
            have hle : g' ≤ g := by
              rw [hg']
              calc _ ≤ (g * s.sb.blocksPerGroup + p₁) / s.sb.blocksPerGroup := Nat.div_le_div_right (Nat.sub_le _ _)
                _ = g := (group_pos hp).1
            have hpos : g' * s.sb.blocksPerGroup + p' = g * s.sb.blocksPerGroup + p₁ - s.sb.firstDataBlock := by
              rw [hg', hp', Nat.mul_comm]
              exact Nat.div_add_mod _ _
            obtain ⟨rfl, rfl, hclear⟩ := BlocksRestored.same_run vol.toDescribed hg (by omega) (by omega)
              (hbest.first_free hl) (fun h0 => bit_before ((hbest.run hl).elim (·.1) (·.1)) h0)
              (fun heq => by subst heq; omega) hcnt.view hview hr
            exact ⟨by omega, (hbest.clear_iff hl).mp hclear⟩
          · intro hcond
            obtain ⟨hz, hfull⟩ := hcond hc g p len hs hbest hl
            rw [hz, Nat.sub_zero] at hg' hp'
            rw [(group_pos hp).1] at hg'
            rw [(group_pos hp).2] at hp'
            subst hg' hp'
            exact .of_clear vol.toDescribed hg hfb ((hbest.clear_iff hl).mpr hfull) hcnt.view hcnt.freeBlocks hview htot
  · rw [show count = 0 by omega, blocksAlloc_zero]
    exact iff_of_true (fun _ => .of_none w hfb start) fun h => absurd h (by omega)

theorem free_restores_one : FreeRestores splitVolume 0 1 0 := by
  refine (free_restores_iff splitVolume (mounted_works _ _ _ _) oneGroupLayout splitVolume_volume (by decide) 0 1 0
    (by decide) fun _ _ _ _ _ => Nat.zero_le _).mpr ?_
  rintro - g p len - - -
  refine ⟨rfl, ?_⟩
  rintro ⟨i, h₁, h₂, -⟩
  omega

def shifted : Superblock :=
  { oneGroup with
    firstDataBlock := 1
    logBlockSize := 0
    inodesPerGroup := 8
    log_le := Nat.le_of_ble_eq_true rfl
    first_lt := Nat.le_of_ble_eq_true rfl
    inodes_pos := Nat.le_of_ble_eq_true rfl
    inodeSize_dvd := ⟨8, rfl⟩
    table_le := Nat.le_of_ble_eq_true rfl }

def shiftedVolume : State :=
  State.mounted shifted (shifted.packedImage (fun _ => 2) (fun _ => 0)
    (fun _ i => if i = 1 then 0xFC else 0xFF) (fun _ _ => 0xFF) fun _ => Block.zero) 2 0

/-- Blocks 9 and 10 are allocated as blocks 8 and 9, and freeing those frees block 8, which was in use. -/
theorem free_restores_shifted :
    (blocksAlloc shiftedVolume 0 2 0).2 = { status := 2, bg := 0, count := 0, start := 8 } ∧
      ¬FreeRestores shiftedVolume 0 2 0 := by
  have hout : (blocksAlloc shiftedVolume 0 2 0).2 = { status := 2, bg := 0, count := 0, start := 8 } := by
    decide +kernel
  refine ⟨hout, fun h => ?_⟩
  have hbit : shifted.blockBit (blocksFree (blocksAlloc shiftedVolume 0 2 0).1 8 2).1.view 0 7 = false := by
    decide +kernel
  have hr : BlocksRestored shiftedVolume (blocksFree (blocksAlloc shiftedVolume 0 2 0).1 8 2).1 := by
    have := h (by rw [hout]; decide)
    rwa [hout] at this
  have := hr.bitmaps 0 (by decide) 7
  rw [show shiftedVolume.sb = shifted from rfl, hbit] at this
  exact absurd this (by decide +kernel)

end Novino.Ext2
