import Novino.Theorems.Inodes

/-! Running out of space. The search looks for a group that has both a free inode and a free block, whatever is being
    allocated, so that the answer "no space" is not always exact. -/

namespace Novino.Ext2
open State

theorem Fault.ne_enospc {s : State} {e : Int} (h : Fault s e) (hio : ∀ n, s.io n ≠ -ENOSPC) : e ≠ -ENOSPC := by
  rcases h with rfl | ⟨n, rfl⟩
  · decide
  · exact hio n

/-- The answers "no space" of the two allocators are exact, however the device and the heap behave: the group counters
of what was asked for are all zero. A device that reports `-ENOSPC` itself is left out. -/
structure SpaceExact (s : State) (bg : Nat) : Prop where
  blocks : ∀ io mem, (∀ n, io n ≠ -ENOSPC) → ∀ count start,
    (blocksAlloc { s with io, mem } bg count start).2.status = -ENOSPC →
      ∀ g < s.sb.groups, s.sb.groupFreeBlocks s.view g = 0
  inodes : ∀ io mem, (∀ n, io n ≠ -ENOSPC) → ∀ links ip,
    (inodeAlloc { s with io, mem } bg links ip).2.1 = none →
      (inodeAlloc { s with io, mem } bg links ip).1.errno = -ENOSPC →
        ∀ g < s.sb.groups, s.sb.groupFreeInodes s.view g = 0

/-- The search sees the space counted by `free` when the wanted group has some, a group that it looks at has both, or
there is none. -/
def Superblock.SpaceSeen (sb : Superblock) (V : Image) (free : Nat → Nat) (bg : Nat) : Prop :=
  free bg ≠ 0 ∨ (∃ g < sb.bgdsTotal, sb.groupFreeInodes V g ≠ 0 ∧ sb.groupFreeBlocks V g ≠ 0) ∨
    ∀ g < sb.groups, free g = 0

theorem SearchInv.exists (sb : Superblock) (V : Image) (n : Nat) : ∃ blocks g, SearchInv sb V n blocks g := by
  induction n with
  | zero => exact ⟨0, 0, fun _ g' hg' => absurd hg' (Nat.not_lt_zero g'), fun h => absurd rfl h⟩
  | succ n ih =>
    obtain ⟨blocks, g, h⟩ := ih
    by_cases hn : sb.groupFreeInodes V n = 0 ∨ sb.groupFreeBlocks V n ≤ blocks
    · exact ⟨blocks, g, h.skip hn⟩
    · obtain ⟨hi, hb⟩ := not_or.mp hn
      exact ⟨_, n, h.take hi (by omega)⟩

variable {sb : Superblock} {V : Image} {free : Nat → Nat} {bg : Nat}

theorem Superblock.exists_fullest_iff {n : Nat} :
    (∃ g, sb.Fullest V n g) ↔ ∃ g < n, sb.groupFreeInodes V g ≠ 0 ∧ sb.groupFreeBlocks V g ≠ 0 := by
  constructor
  · rintro ⟨g, hg⟩
    exact ⟨g, hg.lt, hg.inodes, hg.blocks⟩
  · rintro ⟨g, hlt, hi, hb⟩
    obtain ⟨blocks, g', h⟩ := SearchInv.exists sb V n
    by_cases h0 : blocks = 0
    · exact absurd (h.none h0 g hlt hi) hb
    · exact ⟨g', (h.found h0).1⟩

theorem Superblock.not_serves_iff :
    (∀ g, ¬sb.Serves V free bg g) ↔
      free bg = 0 ∧ ¬∃ g < sb.bgdsTotal, sb.groupFreeInodes V g ≠ 0 ∧ sb.groupFreeBlocks V g ≠ 0 := by
  rw [← Superblock.exists_fullest_iff]
  constructor
  · intro h
    have hbg : free bg = 0 := by
      by_contra hne
      exact h bg (.inl ⟨hne, rfl⟩)
    exact ⟨hbg, fun ⟨g, hg⟩ => h g (.inr ⟨hbg, hg⟩)⟩
  · rintro ⟨hbg, hno⟩ g (⟨hne, -⟩ | ⟨-, hg⟩)
    · exact hne hbg
    · exact hno ⟨g, hg⟩

theorem Superblock.spaceSeen_iff :
    sb.SpaceSeen V free bg ↔ ((∀ g, ¬sb.Serves V free bg g) → ∀ g < sb.groups, free g = 0) := by
  rw [Superblock.not_serves_iff]
  unfold Superblock.SpaceSeen
  rw [← or_assoc, or_iff_not_imp_left, not_or, not_not]

/-- The answers "no space" with wanted group `bg` are exact if and only if the search sees the free blocks and the
    free inodes. -/
theorem space_exact_iff (s : State) (bg : Nat) :
    SpaceExact s bg ↔ s.sb.SpaceSeen s.view (s.sb.groupFreeBlocks s.view) bg ∧
      s.sb.SpaceSeen s.view (s.sb.groupFreeInodes s.view) bg := by
  rw [Superblock.spaceSeen_iff, Superblock.spaceSeen_iff]
  constructor
  · intro h
    let t : State := { s with io := fun _ => 0, mem := fun _ => true }
    have w : t.Works := ⟨fun _ => Int.le_refl 0, fun _ => rfl⟩
    have hio : ∀ n, t.io n ≠ -ENOSPC := fun _ => show (0 : Int) ≠ -ENOSPC by decide
    refine ⟨fun hn => h.blocks t.io t.mem hio 1 0 ?_, fun hn => h.inodes t.io t.mem hio 0 noAttributes ?_ ?_⟩
    · obtain ⟨t', out, heq, ha, -⟩ := blocksAlloc_spec t Nat.one_pos bg 0
      change (blocksAlloc t bg 1 0).2.status = -ENOSPC
      rw [heq]
      cases ha with
      | ok hs => exact absurd hs (hn _)
      | full => rfl
      | fail _ _ _ hw => exact absurd w hw
    all_goals
      obtain ⟨t', r, ip', heq, ha, -⟩ := inodeAlloc_spec t bg 0 noAttributes
    · change (inodeAlloc t bg 0 noAttributes).2.1 = none
      rw [heq]
      cases ha with
      | ok hs => exact absurd hs (hn _)
      | full => rfl
      | fail _ hw => exact absurd w hw
    · change (inodeAlloc t bg 0 noAttributes).1.errno = -ENOSPC
      rw [heq]
      cases ha with
      | ok hs => exact absurd hs (hn _)
      | full _ hst => rw [hst]
      | fail _ hw => exact absurd w hw
  · rintro ⟨hb, hi⟩
    refine ⟨fun io mem hio count start hst => ?_, fun io mem hio links ip hnone herr => ?_⟩
    · rcases Nat.eq_zero_or_pos count with rfl | hc
      · cases hst
      · obtain ⟨t', out, heq, -, hnone⟩ := blocksAlloc_spec { s with io, mem } hc bg start
        rw [heq] at hst
        rcases hnone (by rw [hst]; decide) with hf | hn
        · exact absurd hst (hf.ne_enospc hio)
        · exact hb hn
    · obtain ⟨t', r, ip', heq, -, hfull⟩ := inodeAlloc_spec { s with io, mem } bg links ip
      rw [heq] at hnone herr
      rcases hfull hnone with hf | hn
      · exact absurd herr (hf.ne_enospc hio)
      · exact hi hn

def apartVolume : State :=
  State.mounted twoGroups (twoGroups.packedImage (fun g => if g = 1 then 1 else 0) (fun g => if g = 0 then 1 else 0)
    (fun g i => if g = 1 ∧ i = 3 then 0x7F else 0xFF) (fun g i => if g = 0 ∧ i = 0 then 0xFE else 0xFF)
    fun _ => Block.zero) 1 1

/-- No block is found from the first group and no inode from the second, though the other group has one. -/
theorem space_not_seen :
    (blocksAlloc apartVolume 0 1 0).2.status = -ENOSPC ∧ apartVolume.sb.groupFreeBlocks apartVolume.view 1 = 1 ∧
      (inodeAlloc apartVolume 1 1 noAttributes).2.1 = none ∧
      (inodeAlloc apartVolume 1 1 noAttributes).1.errno = -ENOSPC ∧
      apartVolume.sb.groupFreeInodes apartVolume.view 0 = 1 ∧
      ¬SpaceExact apartVolume 0 ∧ ¬SpaceExact apartVolume 1 := by
  have hb : (blocksAlloc apartVolume 0 1 0).2.status = -ENOSPC := by decide +kernel
  have hi : (inodeAlloc apartVolume 1 1 noAttributes).2.1 = none := by decide +kernel
  have he : (inodeAlloc apartVolume 1 1 noAttributes).1.errno = -ENOSPC := by decide +kernel
  have hio : ∀ n, apartVolume.io n ≠ -ENOSPC := fun _ => show (0 : Int) ≠ -ENOSPC by decide
  refine ⟨hb, by decide +kernel, hi, he, by decide +kernel, fun h => ?_, fun h => ?_⟩
  · have := h.blocks apartVolume.io apartVolume.mem hio 1 0 hb 1 (by decide)
    revert this
    decide +kernel
  · have := h.inodes apartVolume.io apartVolume.mem hio 1 noAttributes hi he 0 (by decide)
    revert this
    decide +kernel

end Novino.Ext2
