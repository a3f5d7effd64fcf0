import Novino.Theorems.Volume
import Novino.Ext2.Inode

/-! The group that an allocation takes: the wanted one while it has something free, and otherwise the one that
    `ext2_bgd_search` finds. -/

namespace Novino.Ext2
open State

inductive DescriptorRead (s s' : State) (g : Nat) (d : Bool) : Option Addr → Prop
  | ok (quiet : Quiet s s') (ready : s'.Ready (s.sb.bgdAddr g).block)
      (dirty : d = true → s'.Dirty (s.sb.bgdAddr g).block) : DescriptorRead s s' g d (some (s.sb.bgdAddr g))
  | fail (quiet : Quiet s s') (errno : s'.errno < 0) (broken : ¬s.Works) : DescriptorRead s s' g d none

theorem bgdRead_spec (s : State) (g : Nat) (d : Bool) :
    ∃ s' r, bgdRead s g d = (s', r) ∧ DescriptorRead s s' g d r ∧ (r = none → Fault s s'.errno) := by
  obtain ⟨s', ok, heq, hf, hfault⟩ := readCached_spec s (s.sb.bgdAddr g).block d
  unfold bgdRead
  rw [heq]
  cases hf with
  | ok q r hd => exact ⟨s', _, rfl, by rw [q.sb]; exact .ok q r hd, nofun⟩
  | fail q e w => exact ⟨s', _, rfl, .fail q e w, fun _ => hfault rfl⟩

variable {s s' : State} {g g' bg : Nat} {sb : Superblock} {V : Image} {free : Nat → Nat}

theorem Quiet.bgd16 (q : Quiet s s') (r : s'.Ready (s.sb.bgdAddr g).block) (o : Nat) :
    s'.u16 (s.sb.bgdAddr g) o = s.sb.bgd16 s.view g o := by
  rw [State.u16_eq r, q.view, Superblock.bgd16]

theorem Quiet.bgd32 (q : Quiet s s') (r : s'.Ready (s.sb.bgdAddr g).block) (o : Nat) :
    s'.u32 (s.sb.bgdAddr g) o = s.sb.bgd32 s.view g o := by
  rw [State.u32_eq r, q.view, Superblock.bgd32]

/-- Among the first `n` groups, `g` is the first with the most free blocks of those that have free inodes. -/
structure Superblock.Fullest (sb : Superblock) (V : Image) (n g : Nat) : Prop where
  lt : g < n
  inodes : sb.groupFreeInodes V g ≠ 0
  blocks : sb.groupFreeBlocks V g ≠ 0
  most : ∀ g' < n, sb.groupFreeInodes V g' ≠ 0 → sb.groupFreeBlocks V g' ≤ sb.groupFreeBlocks V g ∧
    (sb.groupFreeBlocks V g' = sb.groupFreeBlocks V g → g ≤ g')

structure SearchInv (sb : Superblock) (V : Image) (n blocks g : Nat) : Prop where
  none : blocks = 0 → ∀ g' < n, sb.groupFreeInodes V g' ≠ 0 → sb.groupFreeBlocks V g' = 0
  found : blocks ≠ 0 → sb.Fullest V n g ∧ blocks = sb.groupFreeBlocks V g

section
variable {sb : Superblock} {V : Image} {n blocks g : Nat}

theorem SearchInv.skip (h : SearchInv sb V n blocks g)
    (hn : sb.groupFreeInodes V n = 0 ∨ sb.groupFreeBlocks V n ≤ blocks) : SearchInv sb V (n + 1) blocks g := by
  refine ⟨fun h0 g' hg' hi => ?_, fun h0 => ⟨?_, (h.found h0).2⟩⟩
  · rcases Nat.lt_succ_iff_lt_or_eq.mp hg' with hlt | rfl
    · exact h.none h0 g' hlt hi
    · have := hn.resolve_left hi
      omega
  · obtain ⟨hf, hb⟩ := h.found h0
    refine ⟨by have := hf.lt; omega, hf.inodes, hf.blocks, fun g' hg' hi => ?_⟩
    rcases Nat.lt_succ_iff_lt_or_eq.mp hg' with hlt | rfl
    · exact hf.most g' hlt hi
    · have := hn.resolve_left hi
      have := hf.lt
      omega

theorem SearchInv.take (h : SearchInv sb V n blocks g) (hi : sb.groupFreeInodes V n ≠ 0)
    (hb : blocks < sb.groupFreeBlocks V n) : SearchInv sb V (n + 1) (sb.groupFreeBlocks V n) n := by
  refine ⟨fun h0 => absurd h0 (by omega), fun _ => ⟨⟨by omega, hi, by omega, fun g' hg' hi' => ?_⟩, rfl⟩⟩
  rcases Nat.lt_succ_iff_lt_or_eq.mp hg' with hlt | rfl
  · by_cases h0 : blocks = 0
    · have := h.none h0 g' hlt hi'
      omega
    · obtain ⟨hf, hb'⟩ := h.found h0
      have := (hf.most g' hlt hi').1
      omega
  · omega

end

theorem bgdSearchLoop_spec (n : Nat) (s : State) (i blocks bg : Nat)
    (h : SearchInv s.sb s.view i blocks bg) :
    (∃ s' blocks' bg', bgdSearchLoop s i blocks bg n = (s', some (blocks', bg')) ∧ Quiet s s' ∧
        SearchInv s.sb s.view (i + n) blocks' bg' ∧ (blocks' = 0 → bg' = bg)) ∨
      ∃ s', bgdSearchLoop s i blocks bg n = (s', none) ∧ Quiet s s' ∧ s'.errno < 0 ∧ ¬s.Works ∧ Fault s s'.errno := by
  induction n generalizing s i blocks bg with
  | zero => exact .inl ⟨s, blocks, bg, rfl, Quiet.refl s, h, fun _ => rfl⟩
  | succ n ih =>
    obtain ⟨s₁, r, heq, hr, hfault⟩ := bgdRead_spec s i false
    unfold bgdSearchLoop
    rw [heq]
    cases hr with
    | fail q e w => exact .inr ⟨s₁, rfl, q, e, w, hfault rfl⟩
    | ok q r _ =>
      -- the rest of the loop, with what it knows about group `i`
      have rest : ∀ blocks' bg', SearchInv s.sb s.view (i + 1) blocks' bg' → (blocks' = 0 → bg' = bg) →
          (∃ s' b' g', bgdSearchLoop s₁ (i + 1) blocks' bg' n = (s', some (b', g')) ∧ Quiet s s' ∧
            SearchInv s.sb s.view (i + (n + 1)) b' g' ∧ (b' = 0 → g' = bg)) ∨
          ∃ s', bgdSearchLoop s₁ (i + 1) blocks' bg' n = (s', none) ∧ Quiet s s' ∧ s'.errno < 0 ∧ ¬s.Works ∧
            Fault s s'.errno := by
        intro blocks' bg' hinv hbg
        rcases ih s₁ (i + 1) blocks' bg' (by rw [q.sb, q.view]; exact hinv) with
          ⟨s', b', g', h₁, h₂, h₃, h₄⟩ | ⟨s', h₁, h₂, h₃, h₄, h₅⟩
        · rw [q.sb, q.view, show i + 1 + n = i + (n + 1) by omega] at h₃
          refine .inl ⟨s', b', g', h₁, q.trans h₂, h₃, fun h0 => ?_⟩
          have hz : blocks' = 0 := by
            by_contra hne
            obtain ⟨hf, hb⟩ := hinv.found hne
            have := h₃.none h0 bg' (by have := hf.lt; omega) hf.inodes
            omega
          rw [h₄ h0, hbg hz]
        · exact .inr ⟨s', h₁, q.trans h₂, h₃, fun w => h₄ (q.works w), h₅.of_core q.toCore⟩
      simp only [q.bgd16 r]
      split
      · rename_i hi
        exact rest blocks bg (h.skip (.inl hi)) fun _ => rfl
      · rename_i hi
        split
        · rename_i hb
          exact rest _ i (h.take hi hb) fun h0 => by omega
        · rename_i hb
          exact rest blocks bg (h.skip (.inr (Nat.le_of_not_lt hb))) fun _ => rfl

inductive Searched (s s' : State) (bg : Nat) : Int → Nat → Prop
  | found {g : Nat} (quiet : Quiet s s') (fullest : s.sb.Fullest s.view s.sb.bgdsTotal g) : Searched s s' bg 0 g
  | full (quiet : Quiet s s') (none : ∀ g, ¬s.sb.Fullest s.view s.sb.bgdsTotal g) : Searched s s' bg (-ENOSPC) bg
  | fail {e : Int} (quiet : Quiet s s') (errno : s'.errno < 0) (status : e = s'.errno) (broken : ¬s.Works) :
      Searched s s' bg e bg

theorem bgdSearch_spec (s : State) (bg : Nat) :
    ∃ s' st g, bgdSearch s bg = (s', st, g) ∧ Searched s s' bg st g ∧
      (st < 0 → Fault s st ∨ ∀ g, ¬s.sb.Fullest s.view s.sb.bgdsTotal g) := by
  have h₀ : SearchInv s.sb s.view 0 0 bg :=
    ⟨fun _ g' hg' => absurd hg' (Nat.not_lt_zero g'), fun h => absurd rfl h⟩
  unfold bgdSearch
  rcases bgdSearchLoop_spec s.sb.bgdsTotal s 0 0 bg h₀ with ⟨s', b, g, heq, q, hinv, hg⟩ | ⟨s', heq, q, he, hw, hf⟩
  · rw [heq]
    rw [Nat.zero_add] at hinv
    by_cases hb : b = 0
    · have hnone : ∀ g, ¬s.sb.Fullest s.view s.sb.bgdsTotal g := fun g' hf =>
        hf.blocks (hinv.none hb g' hf.lt hf.inodes)
      exact ⟨s', -ENOSPC, bg, by simp [hb, hg hb], .full q hnone, fun _ => .inr hnone⟩
    · exact ⟨s', 0, g, by simp [hb], .found q (hinv.found hb).1, nofun⟩
  · rw [heq]
    exact ⟨s', _, _, rfl, .fail q he rfl hw, fun _ => .inl hf⟩

/-- Group `g` serves an allocation that wants group `bg` and counts what is free by `free`. -/
def Superblock.Serves (sb : Superblock) (V : Image) (free : Nat → Nat) (bg g : Nat) : Prop :=
  free bg ≠ 0 ∧ g = bg ∨ free bg = 0 ∧ sb.Fullest V sb.bgdsTotal g

theorem Superblock.Fullest.unique {n : Nat} (h : sb.Fullest V n g)
    (h' : sb.Fullest V n g') : g = g' := by
  have h₁ := h.most g' h'.lt h'.inodes
  have h₂ := h'.most g h.lt h.inodes
  omega

theorem Superblock.Serves.unique
    (h : sb.Serves V free bg g) (h' : sb.Serves V free bg g') : g = g' := by
  rcases h with ⟨h, rfl⟩ | ⟨h, hf⟩ <;> rcases h' with ⟨h', rfl⟩ | ⟨h', hf'⟩
  · rfl
  · exact absurd h' h
  · exact absurd h h'
  · exact hf.unique hf'

theorem Superblock.Serves.lt {L : Layout sb} (vol : Volume L V)
    (h : sb.Serves V free bg g) (hbg : bg < sb.groups) : g < sb.groups := by
  rcases h with ⟨-, rfl⟩ | ⟨-, hf⟩
  · exact hbg
  · exact Nat.lt_of_not_le fun hle => hf.blocks (vol.behind g hf.lt hle)

inductive Picked (s s' : State) (bg o : Nat) : Except Int (Nat × Addr) → Prop
  | ok {g : Nat} (quiet : Quiet s s') (serves : s.sb.Serves s.view (fun g => s.sb.bgd16 s.view g o) bg g)
      (ready : s'.Ready (s.sb.bgdAddr g).block) (dirty : s'.Dirty (s.sb.bgdAddr g).block) :
      Picked s s' bg o (.ok (g, s.sb.bgdAddr g))
  | full (quiet : Quiet s s') (none : ∀ g, ¬s.sb.Serves s.view (fun g => s.sb.bgd16 s.view g o) bg g) :
      Picked s s' bg o (.error (-ENOSPC))
  | fail {e : Int} (quiet : Quiet s s') (errno : s'.errno < 0) (status : e = s'.errno) (broken : ¬s.Works) :
      Picked s s' bg o (.error e)

theorem pickGroup_spec (s : State) (bg o : Nat) : ∃ s' r, pickGroup s bg o = (s', r) ∧ Picked s s' bg o r ∧
    ∀ e, r = .error e → Fault s e ∨ ∀ g, ¬s.sb.Serves s.view (fun g => s.sb.bgd16 s.view g o) bg g := by
  obtain ⟨s₁, r, heq, hr, hfault⟩ := bgdRead_spec s bg true
  unfold pickGroup
  rw [heq]
  cases hr with
  | fail q e w => exact ⟨s₁, _, rfl, .fail q e rfl w, fun _ h => .inl (Except.error.inj h ▸ hfault rfl)⟩
  | ok q r d =>
    dsimp only
    rw [q.bgd16 r]
    by_cases hb : s.sb.bgd16 s.view bg o ≠ 0
    · exact ⟨s₁, _, by rw [if_pos hb], .ok q (.inl ⟨hb, rfl⟩) r (d rfl), nofun⟩
    · have hz : s.sb.bgd16 s.view bg o = 0 := Nat.eq_zero_of_not_pos fun h => hb (by omega)
      rw [if_neg hb]
      obtain ⟨s₂, st, g, heq₂, hs, hnone⟩ := bgdSearch_spec s₁ bg
      have hserves (hn : ∀ g, ¬s₁.sb.Fullest s₁.view s₁.sb.bgdsTotal g) (g' : Nat) :
          ¬s.sb.Serves s.view (fun g => s.sb.bgd16 s.view g o) bg g' := by
        rw [q.sb, q.view] at hn
        rintro (⟨h, -⟩ | ⟨-, hf⟩)
        · exact hb h
        · exact hn g' hf
      rw [heq₂]
      cases hs with
      | fail q₂ e hst w =>
        exact ⟨s₂, _, by simp only [if_pos (hst ▸ e)], .fail (q.trans q₂) e hst fun h => w (q.works h),
          fun _ h => Except.error.inj h ▸ (hnone (hst ▸ e)).imp (·.of_core q.toCore) hserves⟩
      | full q₂ hn =>
        exact ⟨s₂, .error (-ENOSPC), by simp [ENOSPC], .full (q.trans q₂) (hserves hn), fun _ _ => .inr (hserves hn)⟩
      | found q₂ hf =>
        rw [q.sb, q.view] at hf
        obtain ⟨s₃, r₃, heq₃, hr₃, hfault⟩ := bgdRead_spec s₂ g true
        have hq := q.trans q₂
        simp only [heq₃]
        cases hr₃ with
        | fail q₃ e w =>
          exact ⟨s₃, _, rfl, .fail (hq.trans q₃) e rfl fun h => w (hq.works h),
            fun _ h => .inl (Except.error.inj h ▸ (hfault rfl).of_core hq.toCore)⟩
        | ok q₃ r d =>
          rw [hq.sb] at r d ⊢
          exact ⟨s₃, _, rfl, .ok (hq.trans q₃) (.inr ⟨hz, hf⟩) r (d rfl), nofun⟩

end Novino.Ext2
