import Novino.Lib.Orbit
import Novino.Lib.Steps
import Novino.Storage.Partmgr

/-! Partitions: which sectors a request on a partition reaches, and which partitions the scan of a disk registers. -/

namespace Novino.Storage

open Orbit Steps

/-! ### Requests on a partition -/

/-- What happens to the device of a partition between its registration and a request. -/
inductive Use where
  | opened (report : Report)
  | closed

def Blkdev.use (bd : Blkdev) : Use → Blkdev
  | .opened r => (bd.blkdevOpen r).1
  | .closed => bd.blkdevClose

/-- The device that `partmgr_register` makes, and what has happened to it since. -/
def partition (report : Report) (offset size : Nat) (uses : List Use) : Blkdev :=
  uses.foldl Blkdev.use (Blkdev.blkdevAlloc report offset size).1

/-- The place of the device on the disk: it is not set where the driver reports an error at the registration. -/
def origin (report : Report) (offset : Nat) : Nat := if report.status < 0 then 0 else offset

theorem use_offset (bd : Blkdev) (use : Use) : (bd.use use).offset = bd.offset := by
  cases use with
  | closed => rfl
  | opened r =>
    unfold Blkdev.use Blkdev.blkdevOpen
    cases bd.lock with
    | true => rfl
    | false =>
      simp only [Bool.false_eq_true, if_false]
      split <;> rfl

theorem partition_offset (report : Report) (offset size : Nat) (uses : List Use) :
    (partition report offset size uses).offset = origin report offset := by
  have hkeep : ∀ bd : Blkdev, (uses.foldl Blkdev.use bd).offset = bd.offset := by
    induction uses with
    | nil => exact fun bd => rfl
    | cons use uses ih => exact fun bd => (ih (bd.use use)).trans (use_offset bd use)
  refine (hkeep _).trans ?_
  unfold Blkdev.blkdevAlloc origin
  by_cases hs : report.status < 0
  · simp only [hs, if_true]
    split
    · rfl
    split <;> rfl
  · simp only [hs, if_false]

def Within (offset size : Nat) (request : Nat × Nat) : Prop :=
  ∀ sector, request.1 ≤ sector → sector < request.1 + request.2 → offset ≤ sector ∧ sector < offset + size

variable {offset count : Nat} {bd : Blkdev}

theorem within_iff {size lba : Nat} (hc : count ≠ 0) :
    Within offset size (lba, count) ↔ offset ≤ lba ∧ lba + count ≤ offset + size := by
  constructor
  · intro hw
    have hfirst := hw lba le_rfl (by simp only; omega)
    have hlast := hw (lba + count - 1) (by simp only; omega) (by simp only; omega)
    omega
  · rintro ⟨hlo, hhi⟩ sector h1 h2
    simp only at h1 h2
    omega

/-- A request that the test of `blkdev_rw`, which looks at the whole disk only, refuses. -/
def Refused (bd : Blkdev) (offset count : Nat) : Prop :=
  bd.sectors < (offset + bd.offset) % 2 ^ 64 ∨ bd.sectors < ((offset + bd.offset) % 2 ^ 64 + count) % 2 ^ 64

instance (bd : Blkdev) (offset count : Nat) : Decidable (Refused bd offset count) :=
  inferInstanceAs (Decidable (_ ∨ _))

theorem rw_refused (h : Refused bd offset count) :
    bd.blkdevRw offset count = none := by
  unfold Blkdev.blkdevRw
  rcases h with h | h
  · simp only [if_pos h]
  · simp only [if_pos h, ite_self]

theorem rw_passed (h : ¬Refused bd offset count) :
    bd.blkdevRw offset count = some ((offset + bd.offset) % 2 ^ 64, count) := by
  obtain ⟨h1, h2⟩ := not_or.mp h
  unfold Blkdev.blkdevRw
  simp only [if_neg h1, if_neg h2]

/-- What a request reaches lies in the partition exactly if it is one for no sectors, or it lies in the partition as
seen from the start of the device, or it is refused because of the end of the disk. -/
theorem partition_isolated_iff (report : Report) (offset size : Nat) (ho : offset < 2 ^ 64) (uses : List Use)
    (start count : Nat) (hs : start < 2 ^ 64) :
    (∀ request, (partition report offset size uses).blkdevRw start count = some request → Within offset size request) ↔
      count = 0 ∨ Refused (partition report offset size uses) start count ∨
        offset ≤ origin report offset + start ∧ origin report offset + start < 2 ^ 64 ∧
          origin report offset + start + count ≤ offset + size := by
  have horigin := partition_offset report offset size uses
  have hle : origin report offset ≤ offset := by
    unfold origin
    split <;> omega
  generalize partition report offset size uses = bd at *
  by_cases hr : Refused bd start count
  · refine iff_of_true (fun request hp => ?_) (.inr (.inl hr))
    rw [rw_refused hr] at hp
    exact absurd hp (Option.some_ne_none _).symm
  rw [rw_passed hr]
  simp only [Option.some.injEq, forall_eq', hr, false_or]
  by_cases hc : count = 0
  · refine iff_of_true (fun sector h1 h2 => ?_) (.inl hc)
    simp only at h1 h2
    omega
  rw [within_iff hc, horigin]
  omega

def hundred : Report := ⟨512, 100, 0, 0⟩

theorem partition_isolated_end :
    (partition hundred 10 10 [.opened hundred]).blkdevRw 7 3 = some (17, 3) ∧ Within 10 10 (17, 3) :=
  ⟨by decide, (partition_isolated_iff hundred 10 10 (by decide) [.opened hundred] 7 3 (by decide)).mpr (by decide) _
    (by decide)⟩

/-- The sector behind the end of a partition is read, and it belongs to the next one. -/
theorem partition_not_isolated :
    (partition hundred 10 10 [.opened hundred]).blkdevRw 10 1 = some (20, 1) ∧ ¬Within 10 10 (20, 1) := by
  refine ⟨by decide, fun hw => ?_⟩
  have := hw 20 le_rfl (by decide)
  omega

/-! ### The scan of a GPT -/

namespace Drive

variable {d : Drive} {buf : Block} {n : Nat} {parts : List Part} {id start depth : Nat} {t t₁ t₂ : Table} {p : Part}
  {tables : List Table}

def Used (buf : Block) (n : Nat) : Prop := lbaFirst buf (GPT_ENTRY_SIZE * n) ≠ 0 ∧ lbaLast buf (GPT_ENTRY_SIZE * n) ≠ 0

instance : Decidable (Used buf n) := inferInstanceAs (Decidable (_ ∧ _))

/-- An entry that `partmgr_register` refuses, since it ends behind the end of the disk. -/
def Beyond (d : Drive) (buf : Block) (n : Nat) : Prop :=
  Used buf n ∧ d.bd.sectors < (lbaLast buf (GPT_ENTRY_SIZE * n) + 1) % 2 ^ 64

instance : Decidable (d.Beyond buf n) := inferInstanceAs (Decidable (_ ∧ _))

/-- How many of the next `count` entries the scan looks at: it stops at the first one that is refused. -/
def looked (d : Drive) (buf : Block) : Nat → Nat → Nat
  | 0, _ => 0
  | count + 1, n => if d.Beyond buf n then 1 else looked d buf count (n + 1) + 1

def entryPart (buf : Block) (n : Nat) : Part :=
  ⟨n, lbaFirst buf (GPT_ENTRY_SIZE * n),
    (lbaLast buf (GPT_ENTRY_SIZE * n) + (2 ^ 64 - lbaFirst buf (GPT_ENTRY_SIZE * n)) + 1) % 2 ^ 64⟩

def added (d : Drive) (buf : Block) (n : Nat) : Option Part :=
  if Used buf n ∧ ¬d.Beyond buf n then some (entryPart buf n) else none

theorem lbaFirst_lt (buf : Block) (entry : Nat) : lbaFirst buf entry < 2 ^ 64 := buf.rd64_lt _

theorem lbaLast_lt (buf : Block) (entry : Nat) : lbaLast buf entry < 2 ^ 64 := buf.rd64_lt _

theorem entryPart_end (buf : Block) (n : Nat) : ((entryPart buf n).offset + (entryPart buf n).size) % 2 ^ 64 =
    (lbaLast buf (GPT_ENTRY_SIZE * n) + 1) % 2 ^ 64 := by
  have := lbaFirst_lt buf (GPT_ENTRY_SIZE * n)
  unfold entryPart
  simp only
  omega

theorem register_entry (hu : Used buf n) (hid : ∀ p ∈ parts, p.id < n) :
    d.partmgrRegister parts n (entryPart buf n).offset (entryPart buf n).size =
      if d.Beyond buf n then (parts, -EINVAL) else (parts ++ [entryPart buf n], 0) := by
  have hany : parts.any (·.id = n) = false := by
    rw [List.any_eq_false]
    intro p hp
    have := hid p hp
    simp only [decide_eq_true_eq]
    omega
  unfold partmgrRegister
  rw [entryPart_end, hany]
  by_cases hb : d.bd.sectors < (lbaLast buf (GPT_ENTRY_SIZE * n) + 1) % 2 ^ 64
  · rw [if_pos hb, if_pos ⟨hu, hb⟩]
  · rw [if_neg hb, if_neg Bool.false_ne_true, if_neg fun h => hb h.2]
    rfl

section
variable {count : Nat} {s : Scan}

theorem gptLoop_skip (hu : ¬Used buf n) : d.gptLoop buf (count + 1) n s =
    d.gptLoop buf count (n + 1) { s with reads := s.reads ++ [GPT_ENTRY_SIZE * n] } := if_neg hu

theorem gptLoop_add (hid : ∀ p ∈ s.parts, p.id < n) (hu : Used buf n) (hb : ¬d.Beyond buf n) :
    d.gptLoop buf (count + 1) n s = d.gptLoop buf count (n + 1)
      { s with reads := s.reads ++ [GPT_ENTRY_SIZE * n], parts := s.parts ++ [entryPart buf n] } := by
  have hreg := register_entry (d := d) hu hid
  rw [if_neg hb] at hreg
  refine (if_pos hu).trans ?_
  simp only [entryPart] at hreg
  simp only [hreg, Int.lt_irrefl, if_false]
  rfl

theorem gptLoop_stop (hid : ∀ p ∈ s.parts, p.id < n) (hb : d.Beyond buf n) : d.gptLoop buf (count + 1) n s =
    { s with reads := s.reads ++ [GPT_ENTRY_SIZE * n], status := -EINVAL } := by
  have hreg := register_entry (d := d) hb.1 hid
  rw [if_pos hb] at hreg
  refine (if_pos hb.1).trans ?_
  simp only [entryPart] at hreg
  simp only [hreg]
  rfl

end

theorem added_beyond (hb : d.Beyond buf n) : d.added buf n = none := if_neg fun h => h.2 hb

theorem added_unused (hu : ¬Used buf n) : d.added buf n = none := if_neg fun h => hu h.1

theorem added_used (hu : Used buf n) (hb : ¬d.Beyond buf n) : d.added buf n = some (entryPart buf n) := if_pos ⟨hu, hb⟩

theorem gptLoop_spec (d : Drive) (buf : Block) (count : Nat) : ∀ (n : Nat) (s : Scan), (∀ p ∈ s.parts, p.id < n) →
    (d.gptLoop buf count n s).reads =
        s.reads ++ (List.range (d.looked buf count n)).map (fun i => GPT_ENTRY_SIZE * (n + i)) ∧
      (d.gptLoop buf count n s).parts =
        s.parts ++ (List.range (d.looked buf count n)).filterMap fun i => d.added buf (n + i) := by
  induction count with
  | zero => intro n s _; simp [gptLoop, looked]
  | succ count ih =>
    intro n s hid
    have hshift : ∀ i, n + Nat.succ i = n + 1 + i := fun i => by omega
    have hmap : ∀ k, (List.range (k + 1)).map (fun i => GPT_ENTRY_SIZE * (n + i)) =
        GPT_ENTRY_SIZE * n :: (List.range k).map fun i => GPT_ENTRY_SIZE * (n + 1 + i) := fun k => by
      rw [List.range_succ_eq_map, List.map_cons, List.map_map]
      exact congrArg _ (List.map_congr_left fun i _ => congrArg _ (hshift i))
    have hadd : ∀ k, (List.range (k + 1)).filterMap (fun i => d.added buf (n + i)) =
        (d.added buf n).toList ++ (List.range k).filterMap fun i => d.added buf (n + 1 + i) := fun k => by
      have htail : (fun i => d.added buf (n + i)) ∘ Nat.succ = fun i => d.added buf (n + 1 + i) :=
        funext fun i => congrArg (d.added buf) (hshift i)
      rw [List.range_succ_eq_map, List.filterMap_cons, List.filterMap_map, htail, Nat.add_zero]
      cases d.added buf n <;> rfl
    by_cases hb : d.Beyond buf n
    · rw [gptLoop_stop hid hb, looked, if_pos hb]
      simp [added_beyond hb]
    rw [looked, if_neg hb, hmap, hadd]
    by_cases hu : Used buf n
    · rw [gptLoop_add hid hu hb]
      obtain ⟨hreads, hparts⟩ := ih (n + 1)
        { s with reads := s.reads ++ [GPT_ENTRY_SIZE * n], parts := s.parts ++ [entryPart buf n] } fun p hp => by
          rcases List.mem_append.mp hp with hp | hp
          · exact (hid p hp).trans (Nat.lt_succ_self n)
          · rw [List.mem_singleton.mp hp]
            exact Nat.lt_succ_self n
      rw [hreads, hparts]
      simp [added_used hu hb]
    · rw [gptLoop_skip hu]
      obtain ⟨hreads, hparts⟩ := ih (n + 1) { s with reads := s.reads ++ [GPT_ENTRY_SIZE * n] }
        fun p hp => (hid p hp).trans (Nat.lt_succ_self n)
      rw [hreads, hparts]
      simp [added_unused hu]

theorem entryPart_on_disk (hs : d.bd.sectors < 2 ^ 64) (hb : ¬d.Beyond buf n) (hu : Used buf n) :
    (0 < (entryPart buf n).size ∧ (entryPart buf n).offset + (entryPart buf n).size ≤ d.bd.sectors) ↔
      lbaFirst buf (GPT_ENTRY_SIZE * n) ≤ lbaLast buf (GPT_ENTRY_SIZE * n) ∧
        lbaLast buf (GPT_ENTRY_SIZE * n) + 1 < 2 ^ 64 := by
  have hfirst := lbaFirst_lt buf (GPT_ENTRY_SIZE * n)
  have hlast := lbaLast_lt buf (GPT_ENTRY_SIZE * n)
  have hfit : (lbaLast buf (GPT_ENTRY_SIZE * n) + 1) % 2 ^ 64 ≤ d.bd.sectors := not_lt.mp fun h => hb ⟨hu, h⟩
  have h0 := hu.1
  unfold entryPart
  simp only
  omega

def bufferSize (d : Drive) (h : GptHeader) : Nat := d.gptSectors h * d.bd.bps

def seen (d : Drive) (h : GptHeader) (buf behind : Block) : Block :=
  fun i => if i < d.bufferSize h then buf i else behind (i - d.bufferSize h)

/-- Entry `n` is read at `n` times the entry size and inside of the buffer, and only partitions on the disk, with a
sector, are registered. -/
structure GptRight (d : Drive) (h : GptHeader) (s : Scan) : Prop where
  place : ∀ i entry, s.reads[i]? = some entry → entry = i * h.paSize
  inside : ∀ entry ∈ s.reads, entry + 48 ≤ d.bufferSize h
  parts : ∀ p ∈ s.parts, 0 < p.size ∧ p.offset + p.size ≤ d.bd.sectors

/-- At most one entry is looked at or the header has the entry size of the code, the last one is in the buffer, and no
entry has its first sector behind its last one or the largest number as its last one. -/
structure GptPlain (d : Drive) (h : GptHeader) (mem : Block) : Prop where
  place : d.looked mem h.paCount 0 ≤ 1 ∨ h.paSize = GPT_ENTRY_SIZE
  inside : ∀ n < d.looked mem h.paCount 0, GPT_ENTRY_SIZE * n + 48 ≤ d.bufferSize h
  order : ∀ n < d.looked mem h.paCount 0, Used mem n → ¬d.Beyond mem n →
    lbaFirst mem (GPT_ENTRY_SIZE * n) ≤ lbaLast mem (GPT_ENTRY_SIZE * n) ∧ lbaLast mem (GPT_ENTRY_SIZE * n) + 1 < 2 ^ 64

/-- For every header and every table that is read: the scan is right exactly if they are plain. -/
theorem gpt_scan_iff (hs : d.bd.sectors < 2 ^ 64) (behind : Block) (h : GptHeader) (buf : Block)
    (hread : d.gptRead = .ok (h, buf)) :
    d.GptRight h (d.gptTable behind []) ↔ d.GptPlain h (d.seen h buf behind) := by
  have hscan : d.gptTable behind [] = d.gptLoop (d.seen h buf behind) h.paCount 0 ⟨[], [], 0⟩ := by
    unfold gptTable
    rw [hread]
    rfl
  obtain ⟨hreads, hparts⟩ := gptLoop_spec d (d.seen h buf behind) h.paCount 0 ⟨[], [], 0⟩
    fun p hp => absurd hp List.not_mem_nil
  rw [hscan]
  generalize d.gptLoop (d.seen h buf behind) h.paCount 0 ⟨[], [], 0⟩ = scan at *
  generalize d.seen h buf behind = mem at *
  simp only [List.nil_append, Nat.zero_add] at hreads hparts
  have hentry : ∀ n < d.looked mem h.paCount 0, scan.reads[n]? = some (GPT_ENTRY_SIZE * n) := fun n hn => by
    rw [hreads, List.getElem?_map, List.getElem?_range hn]
    rfl
  have hmem : ∀ p, p ∈ scan.parts ↔ ∃ n < d.looked mem h.paCount 0, d.added mem n = some p := fun p => by
    rw [hparts, List.mem_filterMap]
    simp only [List.mem_range]
  constructor
  · rintro ⟨hplace, hinside, hon⟩
    refine ⟨?_, fun n hn => ?_, fun n hn hu hb => ?_⟩
    · by_cases hle : d.looked mem h.paCount 0 ≤ 1
      · exact .inl hle
      · have := hplace 1 _ (hentry 1 (by omega))
        exact .inr (by omega)
    · exact hinside _ (List.mem_of_getElem? (hentry n hn))
    · exact (entryPart_on_disk hs hb hu).mp (hon _ ((hmem _).mpr ⟨n, hn, added_used hu hb⟩))
  · rintro ⟨hplace, hinside, horder⟩
    have hread : ∀ i entry, scan.reads[i]? = some entry →
        i < d.looked mem h.paCount 0 ∧ entry = GPT_ENTRY_SIZE * i := fun i entry he => by
      have hi : i < d.looked mem h.paCount 0 := by
        have := (List.getElem?_eq_some_iff.mp he).1
        rwa [hreads, List.length_map, List.length_range] at this
      exact ⟨hi, Option.some.inj (he.symm.trans (hentry i hi))⟩
    refine ⟨fun i entry he => ?_, fun entry he => ?_, fun p hp => ?_⟩
    · obtain ⟨hi, rfl⟩ := hread i entry he
      rcases hplace with hle | hsize
      · obtain rfl : i = 0 := by omega
        rw [Nat.mul_zero, Nat.zero_mul]
      · rw [hsize, Nat.mul_comm]
    · obtain ⟨i, hi⟩ := List.getElem?_of_mem he
      obtain ⟨hlt, rfl⟩ := hread i entry hi
      exact hinside i hlt
    · obtain ⟨n, hn, hadd⟩ := (hmem p).mp hp
      by_cases hok : Used mem n ∧ ¬d.Beyond mem n
      · rw [added_used hok.1 hok.2, Option.some.injEq] at hadd
        rw [← hadd]
        exact (entryPart_on_disk hs hok.2 hok.1).mpr (horder n hn hok.1 hok.2)
      · rw [show d.added mem n = none from if_neg hok] at hadd
        exact absurd hadd (Option.some_ne_none p).symm

/-- A disk of 100 sectors with a table of entries of 128 bytes. -/
def tableOf (entries : List (Byte × Byte)) : Drive where
  bd := { bps := 512, sectors := 100, size := 100, dynsz := true }
  data i :=
    if i = 584 then 2 else if i = 592 then entries.length else if i = 596 then 128
    else if i < 1024 then 0
    else
      match entries[(i - 1024) / 128]? with
      | none => 0
      | some (first, last) => if i % 128 = 32 then first else if i % 128 = 40 then last else 0
  transfer _ _ := 0
  heap _ := true

theorem gpt_scan_two_entries :
    ((tableOf [(5, 9), (20, 29)]).gptTable Block.zero []).parts = [⟨0, 5, 5⟩, ⟨1, 20, 10⟩] ∧
      (tableOf [(5, 9), (20, 29)]).GptRight ⟨2, 2, 128⟩ ((tableOf [(5, 9), (20, 29)]).gptTable Block.zero []) := by
  obtain ⟨d, hd⟩ : ∃ d, d = tableOf [(5, 9), (20, 29)] := ⟨_, rfl⟩
  have hread : d.gptRead = .ok (⟨2, 2, 128⟩, fun i => d.data (2 * 512 + i)) := by subst hd; rfl
  have hk : d.looked (d.seen ⟨2, 2, 128⟩ (fun i => d.data (2 * 512 + i)) Block.zero) 2 0 = 2 := by
    subst hd
    decide +kernel
  refine ⟨by decide +kernel, hd ▸ (gpt_scan_iff (by subst hd; decide) Block.zero _ _ hread).mpr
    ⟨.inr rfl, fun n hn => ?_, fun n hn _ _ => ?_⟩⟩ <;> dsimp only at hn <;> rw [hk] at hn
  · have hsize : d.bufferSize ⟨2, 2, 128⟩ = 512 := by subst hd; rfl
    rw [hsize]
    unfold GPT_ENTRY_SIZE
    omega
  · subst hd
    obtain rfl | rfl : n = 0 ∨ n = 1 := by omega
    · decide +kernel
    · decide +kernel

/-- The first sector of an entry is behind its last one, and the entry is registered with 2 ^ 64 - 1 sectors. -/
theorem gpt_scan_reversed :
    ((tableOf [(5, 3)]).gptTable Block.zero []).parts = [⟨0, 5, 2 ^ 64 - 1⟩] ∧
      ¬(tableOf [(5, 3)]).GptRight ⟨2, 1, 128⟩ ((tableOf [(5, 3)]).gptTable Block.zero []) := by
  have hparts : ((tableOf [(5, 3)]).gptTable Block.zero []).parts = [⟨0, 5, 2 ^ 64 - 1⟩] := by decide +kernel
  refine ⟨hparts, fun hright => ?_⟩
  have hon := (hright.parts ⟨0, 5, 2 ^ 64 - 1⟩ (by rw [hparts]; exact List.mem_singleton_self _)).2
  exact absurd hon (by decide)

/-! ### The scan of extended partitions -/

structure Table where
  start : Nat
  part : MbrEntry
  next : MbrEntry
deriving DecidableEq, Repr

def table (d : Drive) (start : Nat) : Option Table :=
  if !d.heap d.bd.bps then none
  else
    match d.blkdevRead start 1 with
    | .error _ => none
    | .ok buf => some ⟨start, mbrEntry buf 0, mbrEntry buf 1⟩

/-- The partition of a table is refused, since it ends behind the end of the disk. -/
def Outside (d : Drive) (t : Table) : Prop :=
  t.part.Filled ∧ d.bd.sectors < ((t.start + t.part.lbaStart) % 2 ^ 64 + t.part.lbaSize) % 2 ^ 64

instance {t : Table} : Decidable (d.Outside t) := inferInstanceAs (Decidable (_ ∧ _))

def mbrRegister (d : Drive) (parts : List Part) (id : Nat) (t : Table) : List Part × Int :=
  if t.part.Filled then d.partmgrRegister parts id ((t.start + t.part.lbaStart) % 2 ^ 64) t.part.lbaSize else (parts, 0)

theorem mbrRegister_neg : (d.mbrRegister parts id t).2 < 0 ↔ d.Outside t := by
  unfold mbrRegister Outside partmgrRegister
  by_cases hf : t.part.Filled
  · rw [if_pos hf]
    split
    · exact iff_of_true (show -EINVAL < 0 by decide) ⟨hf, ‹_›⟩
    · refine iff_of_false ?_ fun h => absurd h.2 ‹_›
      split <;> exact Int.lt_irrefl 0
  · rw [if_neg hf]
    exact iff_of_false (Int.lt_irrefl 0) fun h => hf h.1

def follows (d : Drive) (start : Nat) : Option Nat :=
  (d.table start).bind fun t =>
    if ¬d.Outside t ∧ t.next.Extended then some ((start + t.next.lbaStart) % 2 ^ 64) else none

theorem blkdevRead_error {offset count : Nat} {e : Int} (h : d.blkdevRead offset count = .error e) : e < 0 := by
  unfold blkdevRead at h
  split at h
  · cases h
    decide
  · split at h
    · cases h
      assumption
    · cases h

variable (parts) in
theorem mbrExtended_none (id : Nat) (h : d.table start = none) :
    ∃ status < 0, ∀ depth, d.mbrExtended (depth + 1) id start parts = some (parts, status) := by
  unfold table at h
  simp only [mbrExtended]
  split at h
  · rename_i hheap
    simp only [if_pos hheap]
    exact ⟨-ENOMEM, by decide, fun _ => rfl⟩
  · rename_i hheap
    simp only [if_neg hheap]
    cases hread : d.blkdevRead start 1 with
    | error e => exact ⟨e, blkdevRead_error hread, fun _ => rfl⟩
    | ok buf =>
      rw [hread] at h
      cases h

theorem mbrExtended_some (h : d.table start = some t) :
    d.mbrExtended (depth + 1) id start parts =
      if d.Outside t then some (d.mbrRegister parts id t)
      else if t.next.Extended then
        d.mbrExtended depth (id + 1) ((start + t.next.lbaStart) % 2 ^ 64) (d.mbrRegister parts id t).1
      else some ((d.mbrRegister parts id t).1, 0) := by
  unfold table at h
  rw [mbrExtended]
  split at h
  · cases h
  · rw [if_neg ‹_›]
    cases hread : d.blkdevRead start 1 with
    | error e =>
      rw [hread] at h
      cases h
    | ok buf =>
      rw [hread] at h
      cases h
      have hneg : ∀ t, (d.mbrRegister parts id t).2 < 0 ↔ d.Outside t := fun _ => mbrRegister_neg
      simp only [← hneg]
      rfl

theorem table_start (h : d.table start = some t) : t.start = start := by
  unfold table at h
  split at h
  · cases h
  · split at h
    · cases h
    · cases h
      rfl

theorem table_lba (h : d.table start = some t) :
    t.part.lbaStart < 2 ^ 32 ∧ t.next.lbaStart < 2 ^ 32 := by
  unfold table at h
  split at h
  · cases h
  · split at h
    · cases h
    · cases h
      exact ⟨Block.rd32_lt _ _, Block.rd32_lt _ _⟩

theorem mbrExtended_succ (id start : Nat) (parts : List Part) :
    (d.follows start = none ∧ ∃ r, ∀ depth, d.mbrExtended (depth + 1) id start parts = some r) ∨
      ∃ next parts', d.follows start = some next ∧
        ∀ depth, d.mbrExtended (depth + 1) id start parts = d.mbrExtended depth (id + 1) next parts' := by
  unfold follows
  cases ht : d.table start with
  | none =>
    obtain ⟨status, -, h⟩ := mbrExtended_none parts id ht
    exact .inl ⟨rfl, _, h⟩
  | some t =>
    simp only [mbrExtended_some ht, Option.bind_some]
    by_cases hout : d.Outside t
    · simp only [if_pos hout, if_neg fun h : ¬d.Outside t ∧ t.next.Extended => h.1 hout]
      exact .inl ⟨trivial, _, fun _ => rfl⟩
    · simp only [if_neg hout]
      by_cases hext : t.next.Extended
      · simp only [if_pos hext, if_pos (And.intro hout hext)]
        exact .inr ⟨_, _, rfl, fun _ => rfl⟩
      · simp only [if_neg hext, if_neg fun h : ¬d.Outside t ∧ t.next.Extended => hext h.2]
        exact .inl ⟨trivial, _, fun _ => rfl⟩

theorem mbrExtended_ends (id start : Nat) (parts : List Part) :
    (∃ depth r, d.mbrExtended depth id start parts = some r) ↔ Ends d.follows start := by
  constructor
  · rintro ⟨depth, r, h⟩
    induction depth generalizing id start parts with
    | zero => cases h
    | succ depth ih =>
      rcases mbrExtended_succ (d := d) id start parts with ⟨hstop, -⟩ | ⟨next, parts', hnext, heq⟩
      · exact Ends.stop hstop
      · exact Ends.next hnext (ih _ _ _ (heq depth ▸ h))
  · intro h
    induction h generalizing id parts with
    | @stop start hstop =>
      rcases mbrExtended_succ (d := d) id start parts with ⟨-, r, hr⟩ | ⟨next, _, hnext, -⟩
      · exact ⟨1, r, hr 0⟩
      · rw [hstop] at hnext
        cases hnext
    | @next start next hnext _ ih =>
      rcases mbrExtended_succ (d := d) id start parts with ⟨hstop, -⟩ | ⟨next', parts', hnext', heq⟩
      · rw [hnext] at hstop
        cases hstop
      · rw [hnext] at hnext'
        cases hnext'
        obtain ⟨depth, r, hr⟩ := ih (id + 1) parts'
        exact ⟨depth + 1, r, (heq depth).trans hr⟩

theorem follows_lt {next : Nat} (h : d.follows start = some next) : next ∈ Set.Iio (2 ^ 64) := by
  unfold follows at h
  obtain ⟨t, -, h⟩ := Option.bind_eq_some_iff.mp h
  split at h
  · cases h
    exact Nat.mod_lt _ (by decide)
  · cases h

theorem mem_mbrRegister (h : p ∈ (d.mbrRegister parts id t).1) :
    p ∈ parts ∨ p.id = id ∧ t.part.Filled ∧ p.offset = (t.start + t.part.lbaStart) % 2 ^ 64 := by
  unfold mbrRegister partmgrRegister at h
  split at h
  · rename_i hf
    split at h
    · exact .inl h
    · split at h
      · exact .inl h
      · rcases List.mem_append.mp h with h | h
        · exact .inl h
        · rw [List.mem_singleton.mp h]
          exact .inr ⟨rfl, hf, rfl⟩
  · exact .inl h

theorem mem_mbrExtended {r : List Part × Int}
    (h : d.mbrExtended depth id start parts = some r) (hp : p ∈ r.1) :
    p ∈ parts ∨ id < p.id ∨ p.id = id ∧ ∃ t, d.table start = some t ∧ t.part.Filled ∧
      p.offset = (t.start + t.part.lbaStart) % 2 ^ 64 := by
  induction depth generalizing id start parts with
  | zero => cases h
  | succ depth ih =>
    cases ht : d.table start with
    | none =>
      obtain ⟨status, -, hr⟩ := mbrExtended_none parts id ht
      rw [hr depth] at h
      cases h
      exact .inl hp
    | some t =>
      have hown : p ∈ (d.mbrRegister parts id t).1 → p ∈ parts ∨ id < p.id ∨ p.id = id ∧ ∃ t', some t = some t' ∧
          t'.part.Filled ∧ p.offset = (t'.start + t'.part.lbaStart) % 2 ^ 64 := by
        intro hp
        rcases mem_mbrRegister hp with h | ⟨hid, hf, ho⟩
        · exact .inl h
        · exact .inr (.inr ⟨hid, t, rfl, hf, ho⟩)
      rw [mbrExtended_some ht] at h
      split at h
      · cases h
        exact hown hp
      · split at h
        · rcases ih h with h | h | ⟨h, -⟩
          · exact hown h
          · exact .inr (.inl (by omega))
          · exact .inr (.inl (by omega))
        · cases h
          exact hown hp

def OnDisk (d : Drive) (t : Table) : Prop :=
  t.part.Filled → t.start + t.part.lbaStart + t.part.lbaSize ≤ d.bd.sectors

/-- A well-formed chain of tables from sector `start` on. Links count from the first sector of the whole extended
    partition. -/
def Chain (d : Drive) (base : Nat) : Nat → List Table → Prop
  | _, [] => False
  | start, t :: tables =>
    d.table start = some t ∧ d.OnDisk t ∧
      if t.next.Extended then Chain d base (base + t.next.lbaStart) tables else tables = []

def Table.own (id : Nat) (t : Table) : List Part :=
  if t.part.Filled then [⟨id, t.start + t.part.lbaStart, t.part.lbaSize⟩] else []

def logical : Nat → List Table → List Part
  | _, [] => []
  | id, t :: tables => t.own id ++ logical (id + 1) tables

/-- The scan from `start` registers the partitions of a chain, and nothing else. -/
def ScanRight (d : Drive) (start : Nat) (parts : List Part) (tables : List Table) : Prop :=
  ∃ depth, d.mbrExtended depth 4 start parts = some (parts ++ logical 4 tables, 0)

/-- The third table of a chain has a partition, and the sector at the sum of the first two links has no entry for it. -/
def Apart (d : Drive) (start : Nat) : List Table → Prop
  | t₁ :: t₂ :: t₃ :: _ =>
    t₃.part.Filled ∧ ∀ t, d.table (start + t₁.next.lbaStart + t₂.next.lbaStart) = some t → t.part.Filled →
      t.start + t.part.lbaStart ≠ t₃.start + t₃.part.lbaStart
  | _ => True

theorem mbrRegister_onDisk (hs : d.bd.sectors < 2 ^ 64) (hon : d.OnDisk t)
    (hids : ∀ p ∈ parts, p.id < id) : ¬d.Outside t ∧ (d.mbrRegister parts id t).1 = parts ++ t.own id := by
  unfold Outside mbrRegister partmgrRegister Table.own
  by_cases hf : t.part.Filled
  · have hle := hon hf
    have hfresh : ¬parts.any (·.id = id) := by
      simp only [List.any_eq_true, decide_eq_true_eq, not_exists, not_and]
      intro p hp hid
      exact absurd (hids p hp) (by omega)
    have hmod : (t.start + t.part.lbaStart) % 2 ^ 64 = t.start + t.part.lbaStart := Nat.mod_eq_of_lt (by omega)
    have hmod' : (t.start + t.part.lbaStart + t.part.lbaSize) % 2 ^ 64 = t.start + t.part.lbaStart + t.part.lbaSize :=
      Nat.mod_eq_of_lt (by omega)
    rw [if_pos hf, if_pos hf, hmod, hmod', if_neg (by omega), if_neg hfresh]
    exact ⟨fun h => absurd h.2 (by omega), rfl⟩
  · rw [if_neg hf, if_neg hf]
    exact ⟨fun h => hf h.1, (List.append_nil _).symm⟩

theorem own_id (h : p ∈ t.own id) : p.id = id := by
  unfold Table.own at h
  split at h
  · rw [List.mem_singleton.mp h]
  · cases h

theorem mbrExtended_chain (hs : d.bd.sectors < 2 ^ 64) (depth : Nat)
    (ht : d.table start = some t)
    (hon : d.OnDisk t) (hids : ∀ p ∈ parts, p.id < id) :
    (∀ p ∈ parts ++ t.own id, p.id < id + 1) ∧ d.mbrExtended (depth + 1) id start parts =
      if t.next.Extended then d.mbrExtended depth (id + 1) ((start + t.next.lbaStart) % 2 ^ 64) (parts ++ t.own id)
      else some (parts ++ t.own id, 0) := by
  obtain ⟨hin, hreg⟩ := mbrRegister_onDisk hs hon hids
  refine ⟨fun p hp => ?_, ?_⟩
  · rcases List.mem_append.mp hp with h | h
    · exact Nat.lt_succ_of_lt (hids p h)
    · rw [own_id h]
      exact Nat.lt_succ_self id
  · rw [mbrExtended_some ht, if_neg hin, hreg]

theorem Chain.second (hstart : start < 2 ^ 32)
    (h : d.Chain start start (t₁ :: t₂ :: tables)) :
    t₁.next.Extended ∧ (start + t₁.next.lbaStart) % 2 ^ 64 = start + t₁.next.lbaStart ∧
      d.table (start + t₁.next.lbaStart) = some t₂ ∧ d.OnDisk t₂ ∧
      if t₂.next.Extended then d.Chain start (start + t₂.next.lbaStart) tables else tables = [] := by
  obtain ⟨ht, -, hrest⟩ := h
  have hlba := (table_lba ht).2
  split at hrest
  · exact ⟨‹_›, Nat.mod_eq_of_lt (by omega), hrest⟩
  · cases hrest

theorem scanRight_of_length_le (hs : d.bd.sectors < 2 ^ 64) (hstart : start < 2 ^ 32)
    (hids : ∀ p ∈ parts, p.id < 4) (h : d.Chain start start tables) (hlen : tables.length ≤ 2) :
    d.ScanRight start parts tables := by
  cases tables with
  | nil => cases h
  | cons t₁ tables =>
    cases tables with
    | nil =>
      have hlast : ¬t₁.next.Extended := by
        intro hext
        have hrest := h.2.2
        rw [if_pos hext] at hrest
        exact hrest
      refine ⟨1, ?_⟩
      rw [(mbrExtended_chain hs _ h.1 h.2.1 hids).2, if_neg hlast]
      simp only [logical, List.append_nil]
    | cons t₂ tables =>
      obtain rfl : tables = [] := List.eq_nil_of_length_eq_zero (by simp only [List.length_cons] at hlen; omega)
      obtain ⟨hext, hmod, ht₂, hon₂, hrest⟩ := h.second hstart
      have hlast : ¬t₂.next.Extended := by
        intro hext₂
        rw [if_pos hext₂] at hrest
        exact hrest
      have h₁ := fun depth => mbrExtended_chain hs depth h.1 h.2.1 hids
      refine ⟨2, ?_⟩
      rw [(h₁ 1).2, if_pos hext, hmod, (mbrExtended_chain hs _ ht₂ hon₂ (h₁ 0).1).2, if_neg hlast]
      simp only [logical, List.append_nil, List.append_assoc]

theorem not_scanRight (hs : d.bd.sectors < 2 ^ 64) (hstart : start < 2 ^ 32)
    (hids : ∀ p ∈ parts, p.id < 4) {t₃ : Table}
    (h : d.Chain start start (t₁ :: t₂ :: t₃ :: tables)) (hapart : d.Apart start (t₁ :: t₂ :: t₃ :: tables)) :
    ¬d.ScanRight start parts (t₁ :: t₂ :: t₃ :: tables) := by
  rintro ⟨depth, hscan⟩
  obtain ⟨hext₁, hmod, ht₂, hon₂, hrest⟩ := h.second hstart
  have hext₂ : t₂.next.Extended := by
    by_contra hno
    rw [if_neg hno] at hrest
    cases hrest
  have hlba₁ := (table_lba h.1).2
  have hlba₂ := (table_lba ht₂).2
  cases depth with
  | zero => cases hscan
  | succ depth =>
    obtain ⟨hids₁, h₁⟩ := mbrExtended_chain hs depth h.1 h.2.1 hids
    rw [h₁, if_pos hext₁, hmod] at hscan
    cases depth with
    | zero => cases hscan
    | succ depth =>
      obtain ⟨hids₂, h₂⟩ := mbrExtended_chain hs depth ht₂ hon₂ hids₁
      rw [h₂, if_pos hext₂, Nat.mod_eq_of_lt (by omega)] at hscan
      -- the partition of the third table has number 6, so it can only come from the sector that is read then
      have hmem : ⟨6, t₃.start + t₃.part.lbaStart, t₃.part.lbaSize⟩ ∈
          parts ++ logical 4 (t₁ :: t₂ :: t₃ :: tables) := by
        have hown : t₃.own 6 = [⟨6, t₃.start + t₃.part.lbaStart, t₃.part.lbaSize⟩] := if_pos hapart.1
        simp only [logical, List.mem_append, hown, List.mem_singleton, true_or, or_true]
      rcases mem_mbrExtended hscan hmem with hold | hlt | ⟨-, t, ht, hf, ho⟩
      · exact absurd (hids₂ _ hold) (Nat.lt_irrefl 6)
      · exact absurd hlt (Nat.lt_irrefl 6)
      · have hlba := (table_lba ht).1
        have hstart' := table_start ht
        rw [Nat.mod_eq_of_lt (by omega)] at ho
        exact hapart.2 t ht hf ho.symm

/-- The first table of the disk, `buf`, has its first extended entry at `n`. -/
structure FirstExtended (d : Drive) (buf : Block) (n : Nat) : Prop where
  heap : d.heap d.bd.bps = true
  read : d.blkdevRead 0 1 = .ok buf
  signature : buf.rd16 0x1FE = 0xAA55
  plain : (mbrEntry buf 0).type ≠ 0xEE
  lt : n < 4
  before : ∀ m < n, ¬(mbrEntry buf m).Extended
  here : (mbrEntry buf n).Extended

theorem register_lt (hids : ∀ p ∈ parts, p.id < n) (offset size : Nat) :
    (∀ p ∈ (d.partmgrRegister parts n offset size).1, p.id < n + 1) ∧
      ((d.partmgrRegister parts n offset size).2 = 0 ∨ (d.partmgrRegister parts n offset size).2 = -EINVAL) := by
  have hold : ∀ p ∈ parts, p.id < n + 1 := fun p hp => Nat.lt_succ_of_lt (hids p hp)
  unfold partmgrRegister
  split_ifs
  · exact ⟨hold, .inr rfl⟩
  · exact ⟨hold, .inl rfl⟩
  · exact ⟨List.forall_mem_append.mpr ⟨hold, List.forall_mem_singleton.mpr (Nat.lt_succ_self n)⟩, .inl rfl⟩

/-- The loop up to the first extended entry, `k` entries further on. -/
theorem mbrLoop_first (depth count : Nat) {k : Nat} (hbefore : ∀ m, n ≤ m → m < n + k → ¬(mbrEntry buf m).Extended)
    (hhere : (mbrEntry buf (n + k)).Extended) (hids : ∀ p ∈ parts, p.id < n) :
    ∃ parts', (∀ p ∈ parts', p.id < n + k) ∧ (d.mbrLoop buf depth (k + 1 + count) n parts = some (parts', -EINVAL) ∨
      d.mbrLoop buf depth (k + 1 + count) n parts =
        (d.mbrExtended depth 4 (mbrEntry buf (n + k)).lbaStart parts').bind fun r =>
          if r.2 < 0 then some r else d.mbrLoop buf depth count (n + k + 1) r.1) := by
  induction k generalizing n parts with
  | zero =>
    refine ⟨parts, hids, .inr ?_⟩
    simp only [Nat.add_zero, Nat.zero_add] at hhere ⊢
    rw [Nat.add_comm, mbrLoop, if_pos hhere]
    cases d.mbrExtended depth 4 (mbrEntry buf n).lbaStart parts <;> rfl
  | succ k ih =>
    obtain ⟨r, hr, hlt, hstatus⟩ : ∃ r : List Part × Int,
        (if (mbrEntry buf n).Filled then
            some (d.partmgrRegister parts n (mbrEntry buf n).lbaStart (mbrEntry buf n).lbaSize)
          else some (parts, 0)) = some r ∧ (∀ p ∈ r.1, p.id < n + 1) ∧ (r.2 = 0 ∨ r.2 = -EINVAL) := by
      split
      · exact ⟨_, rfl, register_lt hids _ _⟩
      · exact ⟨_, rfl, fun p hp => Nat.lt_succ_of_lt (hids p hp), .inl rfl⟩
    rw [show k + 1 + 1 + count = k + 1 + count + 1 by omega, mbrLoop,
      if_neg (hbefore n (Nat.le_refl n) (by omega)), hr]
    rcases hstatus with h0 | hneg
    · rw [show n + (k + 1) = n + 1 + k by omega] at hhere ⊢
      simp only [h0, Int.lt_irrefl, if_false]
      exact ih (fun m hle hlt => hbefore m (by omega) (by omega)) hhere hlt
    · refine ⟨r.1, fun p hp => Nat.lt_of_lt_of_le (hlt p hp) (by omega), .inl ?_⟩
      simp only [hneg, show -EINVAL < 0 by decide, if_true]

/-- The scan ends exactly where the links lead into no circle. It registers the partitions of a well-formed chain at
their true addresses exactly where the chain has at most two tables, unless the sector that is read for the third one
has an entry for the same partition. `partmgr_init` calls it with partitions of the first table, which have smaller
numbers; a second extended entry of that table starts with the number 4 again. -/
theorem mbr_scan_iff (hs : d.bd.sectors < 2 ^ 64) :
    (∀ start parts, (∃ depth r, d.mbrExtended depth 4 start parts = some r) ↔ ¬Circular d.follows start) ∧
      (∀ start < 2 ^ 32, ∀ parts : List Part, (∀ p ∈ parts, p.id < 4) → ∀ tables, d.Chain start start tables →
        d.Apart start tables → (d.ScanRight start parts tables ↔ tables.length ≤ 2)) ∧
      ∀ behind depth buf n, d.FirstExtended buf n → ∃ parts, (∀ p ∈ parts, p.id < 4) ∧
        (d.partmgrInit behind depth = some (parts, -EINVAL) ∨ d.partmgrInit behind depth =
          (d.mbrExtended depth 4 (mbrEntry buf n).lbaStart parts).bind fun r =>
            if r.2 < 0 then some r else d.mbrLoop buf depth (3 - n) (n + 1) r.1) := by
  refine ⟨fun start parts => ?_, fun start hstart parts hids tables hchain hapart =>
    ⟨fun hright => ?_, scanRight_of_length_le hs hstart hids hchain⟩, fun behind depth buf n h => ?_⟩
  · rw [mbrExtended_ends]
    exact ends_iff (Set.finite_Iio (2 ^ 64)) fun _ _ => follows_lt
  · by_contra hlen
    rcases tables with _ | ⟨t₁, _ | ⟨t₂, _ | ⟨t₃, tables⟩⟩⟩
    · exact hlen (Nat.zero_le 2)
    · exact hlen (Nat.le_succ 1)
    · exact hlen (Nat.le_refl 2)
    · exact not_scanRight hs hstart hids hchain hapart hright
  · have hlt := h.lt
    obtain ⟨parts, hids, hloop⟩ := mbrLoop_first (d := d) (n := 0) (k := n) depth (3 - n)
      (fun m _ hm => h.before m (by omega)) (by rw [Nat.zero_add]; exact h.here) (List.forall_mem_nil _)
    have hinit : d.partmgrInit behind depth = d.mbrLoop buf depth 4 0 [] := by
      unfold partmgrInit
      rw [h.heap, h.read]
      simp only [Bool.not_true, Bool.false_eq_true, if_false, h.signature, ne_eq, not_true, if_neg h.plain]
    rw [Nat.zero_add] at hids
    rw [Nat.zero_add, show n + 1 + (3 - n) = 4 by omega, ← hinit] at hloop
    exact ⟨parts, fun p hp => Nat.lt_trans (hids p hp) hlt, hloop⟩

/-- A disk of 100 sectors with tables in some of them, each with a partition of two sectors and the given link. -/
def tablesAt (links : List (Nat × Option Byte)) : Drive where
  bd := { bps := 512, sectors := 100, size := 100, dynsz := true }
  data i :=
    match links.lookup (i / 512) with
    | none => 0
    | some link =>
      if i % 512 = 450 then 0x83 else if i % 512 = 454 then 1 else if i % 512 = 458 then 2
      else if i % 512 = 466 ∧ link.isSome then 5 else if i % 512 = 470 then link.getD 0 else 0
  transfer _ _ := 0
  heap _ := true

def tableAt (start : Nat) (link : Option Nat) : Table where
  start := start
  part := ⟨0x83, 1, 2⟩
  next := ⟨if link.isSome then 5 else 0, link.getD 0, 0⟩

theorem mbr_scan_two_tables :
    let d := tablesAt [(10, some 10), (20, none)]
    (∃ depth r, d.mbrExtended depth 4 10 [] = some r) ∧
      d.ScanRight 10 [] [tableAt 10 (some 10), tableAt 20 none] := by
  intro d
  have hends : Ends d.follows 10 := Ends.next (b := 20) (by decide +kernel) (Ends.stop (by decide +kernel))
  have hchain : d.Chain 10 10 [tableAt 10 (some 10), tableAt 20 none] :=
    ⟨by decide +kernel, fun _ => by decide, by decide +kernel, fun _ => by decide, rfl⟩
  obtain ⟨hterm, hright, -⟩ := @mbr_scan_iff d (by decide)
  exact ⟨(hterm 10 []).mpr hends.not_circular,
    (hright 10 (by decide) [] (List.forall_mem_nil _) _ hchain trivial).mpr (by decide)⟩

/-- A table that links to itself is read again and again. The third table of a chain, at 10 + 20, is looked for at 10 +
10 + 20. -/
theorem mbr_scan_circle_third :
    (∀ depth r, (tablesAt [(10, some 0)]).mbrExtended depth 4 10 [] ≠ some r) ∧
      let d := tablesAt [(10, some 10), (20, some 20), (30, none)]
      let tables := [tableAt 10 (some 10), tableAt 20 (some 20), tableAt 30 none]
      d.Chain 10 10 tables ∧ logical 4 tables = [⟨4, 11, 2⟩, ⟨5, 21, 2⟩, ⟨6, 31, 2⟩] ∧
        d.mbrExtended 3 4 10 [] = some ([⟨4, 11, 2⟩, ⟨5, 21, 2⟩], 0) ∧ ¬d.ScanRight 10 [] tables := by
  refine ⟨fun depth r h => ?_, ?_⟩
  · have hself : (tablesAt [(10, some 0)]).follows 10 = some 10 := by decide +kernel
    exact ((mbrExtended_ends 4 10 []).mp ⟨depth, r, h⟩).not_circular
      ⟨10, Relation.ReflTransGen.refl, Relation.TransGen.single hself⟩
  · intro d tables
    have hchain : d.Chain 10 10 tables :=
      ⟨by decide +kernel, fun _ => by decide, by decide +kernel, fun _ => by decide, by decide +kernel,
        fun _ => by decide, rfl⟩
    have hclear : d.table (10 + 10 + 20) = some ⟨40, ⟨0, 0, 0⟩, ⟨0, 0, 0⟩⟩ := by decide +kernel
    refine ⟨hchain, by decide, by decide +kernel, not_scanRight (by decide) (by decide)
      (fun _ h => absurd h List.not_mem_nil) hchain ⟨by decide, fun t ht hf => ?_⟩⟩
    obtain rfl : _ = t := Option.some_inj.mp (hclear.symm.trans ht)
    exact absurd hf (by decide)

end Drive
end Novino.Storage
