import Mathlib.Data.List.Count
import Mathlib.Data.List.Perm.Subperm
import Novino.Sched.Wq
import Novino.Theorems.Lists

/-! Wait queues under any interleaving, as long as `wq_interrupt` does not lock a queue that its thread has left for
    another one. -/

namespace Novino.Sched
namespace Machine

open Main

variable {threads : List Nat} {s : Machine} {seq : Nat → List Nat} {q t : Nat}

structure Ok (threads : List Nat) (s : Machine) (seq : Nat → List Nat) : Prop where
  rep : ∀ q, Represents s.mem (s.list q) (seq q)
  offset : ∀ q, (s.list q).offset = WLINK
  member : ∀ t q, t ∈ seq q ↔ (s.thread t).wq = some q
  known : ∀ t q, t ∈ seq q → t ∈ threads
  asleep : ∀ t, (s.thread t).state = .sleeping ↔ (s.thread t).wq ≠ none
  unlinked : ∀ t, (s.thread t).wq = none → s.mem (t + WLINK) = ⟨0, 0⟩
  queued : ∀ t ∈ threads, s.runq.count t = if (s.thread t).state = .ready then 1 else 0
  runnable : ∀ t ∈ s.runq, t ∈ threads
  once : ∀ t, s.wakes t + (if (s.thread t).state = .sleeping then 1 else 0) = s.sleeps t

namespace Ok

theorem init (hnd : threads.Nodup) : (init threads).Ok threads fun _ => [] where
  rep _ := Represents.init _ WLINK
  offset _ := rfl
  member t q := by simp [Machine.init]
  known _ _ h := absurd h List.not_mem_nil
  asleep t := by simp [Machine.init]
  unlinked _ _ := rfl
  queued t ht := List.count_eq_one_of_mem hnd ht
  runnable _ h := h
  once _ := rfl

section
variable (h : Ok threads s seq) {mem : Links} {list : KList} {xs : List Nat}
include h

theorem apart {q q' : Nat} (hq : t ∈ seq q) (hq' : t ∈ seq q') : q = q' :=
  Option.some.inj (((h.member t q).mp hq).symm.trans ((h.member t q').mp hq'))

theorem rep_update (hrep : Represents mem list xs)
    (hoff : list.offset = WLINK)
    (hmem : ∀ q', q' ≠ q → ∀ y ∈ seq q', mem (y + WLINK) = s.mem (y + WLINK)) (q' : Nat) :
    Represents mem (Function.update s.list q list q') (Function.update seq q xs q') ∧
      (Function.update s.list q list q').offset = WLINK := by
  by_cases hq : q' = q
  · subst hq
    rw [Function.update_self, Function.update_self]
    exact ⟨hrep, hoff⟩
  · rw [Function.update_of_ne hq, Function.update_of_ne hq]
    refine ⟨(h.rep q').congr fun y hy => ?_, h.offset q'⟩
    rw [h.offset q']
    exact hmem q' hq y hy

theorem take (ht : t ∈ seq q)
    (hrep : Represents mem list xs) (hoff : list.offset = WLINK) (hxs : ∀ y, y ∈ xs ↔ y ∈ seq q ∧ y ≠ t)
    (hother : ∀ y, y ∉ seq q → mem (y + WLINK) = s.mem (y + WLINK)) (hlink : mem (t + WLINK) = ⟨0, 0⟩) (intr : Bool) :
    ((s.withList q (mem, list)).wakeUp t intr).Ok threads (Function.update seq q xs) := by
  have hrest := h.rep_update hrep hoff fun q' hq y hy => hother y fun hy' => hq (h.apart hy hy')
  have hwq := (h.member t q).mp ht
  have hsleep : (s.thread t).state = .sleeping := (h.asleep t).mpr (by simp [hwq])
  have hold : ∀ {y q'}, y ∈ Function.update seq q xs q' ↔ y ∈ seq q' ∧ y ≠ t := by
    intro y q'
    by_cases hq : q' = q
    · rw [hq, Function.update_self, hxs]
    · rw [Function.update_of_ne hq]
      exact ⟨fun hy => ⟨hy, fun heq => hq (h.apart (heq ▸ hy) ht)⟩, And.left⟩
  refine ⟨fun q' => (hrest q').1, fun q' => (hrest q').2, fun y q' => ?_, fun y q' hy => h.known y q' (hold.mp hy).1,
    fun y => ?_, fun y hy => ?_, fun y hy => ?_, fun y hy => ?_, fun y => ?_⟩
  · rw [hold, h.member]
    by_cases hy : y = t <;> simp [wakeUp, withList, hy]
  · by_cases hy : y = t
    · simp [wakeUp, hy]
    · simpa [wakeUp, withList, hy] using h.asleep y
  · by_cases hyt : y = t
    · exact hyt ▸ hlink
    · have hnone : (s.thread y).wq = none := by simpa [wakeUp, withList, hyt] using hy
      refine (hother y fun hm => ?_).trans (h.unlinked y hnone)
      rw [h.member, hnone] at hm
      cases hm
  · by_cases hyt : y = t
    · have hcount := h.queued t (h.known t q ht)
      simp [wakeUp, withList, hyt, hcount, hsleep]
    · simpa [wakeUp, withList, hyt, List.count_append, List.count_singleton, Ne.symm hyt] using h.queued y hy
  · rcases List.mem_append.mp hy with hy | hy
    · exact h.runnable y hy
    · exact List.mem_singleton.mp hy ▸ h.known t q ht
  · by_cases hyt : y = t
    · have honce := h.once t
      simp [hsleep] at honce
      simp [wakeUp, withList, hyt, honce]
    · simpa [wakeUp, withList, hyt] using h.once y

theorem wait (h0 : 0 ∉ threads) (ht : t ∈ threads) (hrun : (s.thread t).state = .running)
    (q : Nat) : (s.wqWait q t).Ok threads (Function.update seq q (seq q ++ [t])) := by
  have hwq : (s.thread t).wq = none := by
    by_contra hne
    have hsleep := (h.asleep t).mpr hne
    rw [hrun] at hsleep
    cases hsleep
  have hout : ∀ q', t ∉ seq q' := fun q' hm => by
    rw [h.member, hwq] at hm
    cases hm
  have hrep := (h.rep q).append (fun heq => h0 (heq ▸ ht)) (hout q)
  have hother : ∀ y, y ∉ seq q → y ≠ t → (listAppend s.mem (s.list q) t).1 (y + WLINK) = s.mem (y + WLINK) := by
    intro y hy hyt
    have hframe := (h.rep q).append_other hy hyt
    rwa [h.offset q] at hframe
  have hrest := h.rep_update hrep (h.offset q)
    fun q' hq y hy => hother y (fun hy' => hq (h.apart hy hy')) fun heq => hout q' (heq ▸ hy)
  have hnew : ∀ {y q'}, y ∈ Function.update seq q (seq q ++ [t]) q' ↔ y ∈ seq q' ∨ (q' = q ∧ y = t) := by
    intro y q'
    by_cases hq : q' = q
    · simp [hq]
    · simp [hq]
  refine ⟨fun q' => (hrest q').1, fun q' => (hrest q').2, fun y q' => ?_, fun y q' hy => ?_,
    fun y => ?_, fun y hy => ?_, fun y hy => ?_, h.runnable, fun y => ?_⟩
  · rw [hnew, h.member]
    by_cases hy : y = t
    · simp [wqWait, hy, hwq, eq_comm]
    · simp [wqWait, withList, hy]
  · rcases hnew.mp hy with hy | ⟨-, rfl⟩
    · exact h.known y q' hy
    · exact ht
  · by_cases hy : y = t
    · simp [wqWait, hy]
    · simpa [wqWait, withList, hy] using h.asleep y
  · have hyt : y ≠ t := fun heq => by simp [wqWait, heq] at hy
    have hnone : (s.thread y).wq = none := by simpa [wqWait, withList, hyt] using hy
    refine (hother y (fun hm => ?_) hyt).trans (h.unlinked y hnone)
    rw [h.member, hnone] at hm
    cases hm
  · by_cases hyt : y = t
    · have hcount := h.queued t ht
      simpa [wqWait, withList, hyt, hrun] using hcount
    · simpa [wqWait, withList, hyt] using h.queued y hy
  · by_cases hyt : y = t
    · have honce := h.once t
      simp [hrun] at honce
      simp [wqWait, withList, hyt, honce]
    · simpa [wqWait, withList, hyt] using h.once y

end

theorem withList_self : s.withList q (s.mem, s.list q) = s := by
  simp [withList]

theorem wakeOne_nil (h : Ok threads s seq) (hq : seq q = []) : s.wqWakeOne q = (s, 0) := by
  have hhead : (s.list q).head = 0 := (h.rep q).head_eq_zero.mpr hq
  simp [wqWakeOne, listPop, hhead, withList_self]

def popped (s : Machine) (q : Nat) : Machine :=
    s.withList q ((listPop s.mem (s.list q)).1, (listPop s.mem (s.list q)).2.1)

section
variable (h : Ok threads s seq) {ts : List Nat}
include h

theorem wakeOne_cons (hq : seq q = t :: ts) :
    s.wqWakeOne q = ((popped s q).wakeUp t (s.thread t).intr, 1) := by
  have ht0 : t ≠ 0 := (h.rep q).ne_zero (hq ▸ List.mem_cons_self)
  have hitem := (h.rep q).pop.2
  rw [hq, List.headD_cons] at hitem
  simp only [wqWakeOne, hitem, ne_eq, ht0, not_false_eq_true, if_true]
  rfl

theorem wakeOne (hq : seq q = t :: ts) : (s.wqWakeOne q).1.Ok threads (Function.update seq q ts) := by
  have ht : t ∈ seq q := hq ▸ List.mem_cons_self
  have hhead : (s.list q).head = t := (h.rep q).head.trans (by rw [hq]; rfl)
  have hrep := (h.rep q).pop.1
  have hnd := (h.rep q).nodup
  rw [hq] at hrep hnd
  rw [h.wakeOne_cons hq]
  refine h.take ht hrep ?_ (fun y => ?_) (fun y hy => ?_) ?_ _
  · rw [listPop_offset, h.offset]
  · have hts := (List.nodup_cons.mp hnd).1
    rw [hq, List.mem_cons, List.tail_cons]
    exact ⟨fun hy => ⟨.inr hy, fun heq => hts (heq ▸ hy)⟩, fun hy => hy.1.resolve_left hy.2⟩
  · have hframe := (h.rep q).pop_other hy
    rwa [h.offset] at hframe
  · have hzero : (s.list q).head ≠ 0 := hhead ▸ (h.rep q).ne_zero ht
    have hlink := Represents.pop_link s.mem hzero
    rwa [hhead, h.offset] at hlink

theorem wakeLoop {n : Nat} (hn : (seq q).length < n) :
    (Machine.wakeLoop q n s).Ok threads (Function.update seq q []) := by
  induction n generalizing s seq with
  | zero => exact absurd hn (Nat.not_lt_zero _)
  | succ n ih =>
    cases hq : seq q with
    | nil =>
      simp only [Machine.wakeLoop, h.wakeOne_nil hq, ne_eq, not_true_eq_false, if_false]
      rwa [← hq, Function.update_eq_self]
    | cons t ts =>
      have hstep := h.wakeOne hq
      have hone : (s.wqWakeOne q).2 ≠ 0 := by
        rw [h.wakeOne_cons hq]
        exact Nat.one_ne_zero
      simp only [Machine.wakeLoop, if_pos hone]
      have hrest := ih hstep (by
        rw [hq, List.length_cons] at hn
        rw [Function.update_self]
        omega)
      rwa [Function.update_idem] at hrest

theorem wake (hlen : (s.list q).length = (seq q).length) : (s.wqWake q).Ok threads (Function.update seq q []) :=
  h.wakeLoop (by omega)

theorem interrupt_eq (ht : t ∈ seq q) :
    s.wqInterrupt q t = (s.withList q ((listRemove s.mem (s.list q) t).1,
      (listRemove s.mem (s.list q) t).2.1)).wakeUp t true := by
  obtain ⟨l, r, hlr⟩ := List.append_of_mem ht
  have hok := (hlr ▸ h.rep q).remove.2
  simp only [wqInterrupt, hok, if_true]

theorem interrupt (ht : t ∈ seq q) : (s.wqInterrupt q t).Ok threads (Function.update seq q ((seq q).erase t)) := by
  have hnd := (h.rep q).nodup
  rw [h.interrupt_eq ht]
  obtain ⟨l, r, hlr, hl⟩ := List.eq_append_cons_of_mem ht
  have hrep := hlr ▸ h.rep q
  have herase : (seq q).erase t = l ++ r := by
    rw [hlr, List.erase_append_right _ hl, List.erase_cons_head]
  refine h.take ht (herase ▸ hrep.remove.1) ?_ (fun y => ?_) (fun y hy => ?_) ?_ _
  · rw [listRemove_offset, h.offset]
  · rw [hnd.mem_erase_iff, and_comm]
  · have hframe := hrep.remove_other (hlr ▸ hy)
    rwa [h.offset] at hframe
  · have hlink := hrep.remove_link
    rwa [h.offset] at hlink

theorem interrupt_idle (ht : t ∉ seq q) (ht0 : t ≠ 0) (hlink : s.mem (t + WLINK) = ⟨0, 0⟩) : s.wqInterrupt q t = s := by
  have hhead : (s.list q).head ≠ t := fun heq => ht (heq ▸ (h.rep q).head_mem (heq.symm ▸ ht0))
  have htail : (s.list q).tail ≠ t := fun heq => ht (heq ▸ (h.rep q).tail_mem (heq.symm ▸ ht0))
  have hsame : listRemove s.mem (s.list q) t = (s.mem, s.list q, false) := by
    simp [listRemove, hhead, htail, h.offset, hlink]
  simp [wqInterrupt, hsame, withList_self]

theorem restate (hwake : (s.thread t).state ≠ .sleeping) {st : ThreadState}
    (hst : st ≠ .sleeping) {runq : List Nat} (intr : Bool) (hsub : ∀ y ∈ runq, y ∈ threads)
    (hcount : runq.count t = if st = .ready then 1 else 0) (hother : ∀ y, y ≠ t → runq.count y = s.runq.count y) :
    { s with thread := Function.update s.thread t ⟨st, (s.thread t).wq, intr⟩, runq := runq }.Ok threads seq := by
  refine ⟨h.rep, h.offset, fun y q' => ?_, h.known, fun y => ?_, fun y hy => ?_, fun y hy => ?_, hsub, fun y => ?_⟩
  · by_cases hy : y = t
    · simpa [hy] using h.member t q'
    · simpa [hy] using h.member y q'
  · by_cases hy : y = t
    · simpa [hy, hwake, hst] using h.asleep t
    · simpa [hy] using h.asleep y
  · by_cases hyt : y = t
    · exact h.unlinked y (by simpa [hyt] using hy)
    · exact h.unlinked y (by simpa [hyt] using hy)
  · by_cases hyt : y = t
    · simpa [hyt] using hcount
    · simpa [hyt, hother y hyt] using h.queued y hy
  · by_cases hyt : y = t
    · simpa [hyt, hwake, hst] using h.once t
    · simpa [hyt] using h.once y

theorem ready_of_mem (ht : t ∈ s.runq) : (s.thread t).state = .ready := by
  have hcount := h.queued t (h.runnable t ht)
  have hpos := List.count_pos_iff.mpr ht
  by_contra hne
  rw [if_neg hne] at hcount
  omega

theorem resume (ht : t ∈ s.runq) : (s.resume t).1.Ok threads seq := by
  have hready := h.ready_of_mem ht
  have hcount := h.queued t (h.runnable t ht)
  refine h.restate (by simp [hready]) (by simp) false
    (fun y hy => h.runnable y (List.mem_of_mem_erase hy)) ?_ fun y hy => List.count_erase_of_ne hy
  rw [List.count_erase_self, hcount, hready]
  rfl

theorem preempt (ht : t ∈ threads) (hrun : (s.thread t).state = .running) : (s.preempt t).Ok threads seq := by
  have hcount := h.queued t ht
  refine h.restate (by simp [hrun]) (by simp) (s.thread t).intr (fun y hy => ?_) ?_ fun y hy => ?_
  · rcases List.mem_append.mp hy with hy | hy
    · exact h.runnable y hy
    · exact List.mem_singleton.mp hy ▸ ht
  · simp [hcount, hrun]
  · simp [List.count_append, Ne.symm hy]

theorem length_lt (hlen : threads.length < 2 ^ 32) (q : Nat) : (seq q).length < 2 ^ 32 :=
  Nat.lt_of_le_of_lt (List.subperm_of_subset (h.rep q).nodup fun y hy => h.known y q hy).length_le hlen

theorem length_eq (hlen : threads.length < 2 ^ 32) (q : Nat) : (s.list q).length = (seq q).length :=
  (h.rep q).length.trans (Nat.mod_eq_of_lt (h.length_lt hlen q))

end

end Ok

/-- Every queue has a well-formed list `seq q`, no thread is in two of them, the threads that sleep are those in the
lists, and the others are on the run queue if they are ready; a thread was put there once for every sleep that has
ended. -/
structure Fine (threads : List Nat) (s : Machine) (seq : Nat → List Nat) : Prop where
  rep : ∀ q, Represents s.mem (s.list q) (seq q)
  length : ∀ q, (s.list q).length = (seq q).length
  apart : ∀ t q q', t ∈ seq q → t ∈ seq q' → q = q'
  asleep : ∀ t, (s.thread t).state = .sleeping ↔ ∃ q, t ∈ seq q
  queued : ∀ t ∈ threads, s.runq.count t = if (s.thread t).state = .ready then 1 else 0
  once : ∀ t, s.wakes t + (if (s.thread t).state = .sleeping then 1 else 0) = s.sleeps t

theorem Ok.fine (h : Ok threads s seq) (hlen : threads.length < 2 ^ 32) : s.Fine threads seq where
  rep := h.rep
  length := h.length_eq hlen
  apart _ _ _ := h.apart
  asleep t := by
    simp only [h.asleep t, Option.ne_none_iff_exists', h.member]
  queued := h.queued
  once := h.once

theorem Ok.interrupt_stale (h : Ok threads s seq) (hlen : threads.length < 2 ^ 32) {q' : Nat} (ht : t ∈ seq q')
    (hne : q' ≠ q) (hlink : s.mem (t + WLINK) ≠ ⟨0, 0⟩) (seq' : Nat → List Nat) :
    ¬(s.wqInterrupt q t).Fine threads seq' := by
  intro hf
  have ht0 : t ≠ 0 := (h.rep q').ne_zero ht
  have hout : t ∉ seq q := fun hm => hne (h.apart ht hm)
  have hhead : (s.list q).head ≠ t := fun heq => hout (heq ▸ (h.rep q).head_mem (heq.symm ▸ ht0))
  have htail : (s.list q).tail ≠ t := fun heq => hout (heq ▸ (h.rep q).tail_mem (heq.symm ▸ ht0))
  have hnext : (s.mem (t + WLINK)).prev ≠ 0 ∨ (s.mem (t + WLINK)).next ≠ 0 := by
    by_contra hnone
    rw [not_or, not_not, not_not] at hnone
    exact hlink (ListLink.ext hnone.1 hnone.2)
  have hremove : listRemove s.mem (s.list q) t =
      (Function.update (listBypass s.mem (s.list q) t) (t + WLINK) ⟨0, 0⟩,
        { s.list q with length := decr32 (s.list q).length }, true) := by
    simp [listRemove, hhead, htail, h.offset, hnext]
  -- The threads of the locked queue are still linked as before.
  have hkeep : Represents (Function.update (listBypass s.mem (s.list q) t) (t + WLINK) ⟨0, 0⟩) (s.list q) (seq q) := by
    refine (h.rep q).congr fun y hy => ?_
    obtain ⟨l, r, hlr⟩ := List.append_of_mem ht
    have hyout : y ∉ l ++ t :: r := fun hm => hne (h.apart (hlr ▸ hm) hy)
    have hyt : y ≠ t := fun heq => hout (heq ▸ hy)
    have hframe := (hlr ▸ h.rep q').bypass_other hyout
    have hoffset : (s.list q').offset = (s.list q).offset := (h.offset q').trans (h.offset q).symm
    rw [h.offset, listBypass_congr hoffset] at hframe
    rw [h.offset, Function.update_of_ne (by omega), hframe]
  have hrep := hf.rep q
  have hlength := hf.length q
  have hold := h.length_eq hlen q
  have hlt := h.length_lt hlen q
  simp only [wqInterrupt, hremove, if_true, wakeUp, withList, Function.update_self] at hrep hlength
  have hseq : seq q = seq' q := hkeep.unique hrep rfl rfl
  rw [hold, ← hseq, decr32] at hlength
  omega

end Machine

namespace Queues

variable {threads : List Nat} {s : Queues} {op : QueueOp} {seq : Nat → List Nat}

structure Inv (threads : List Nat) (s : Queues) (seq : Nat → List Nat) : Prop where
  ok : s.sys.Ok threads seq
  reading : ∀ i, ∀ r ∈ s.reading i, r.1 ∈ threads

/-- When `wq_interrupt` has locked the queue that it read, the thread still sleeps there, or it has no neighbours in any
list. -/
def Timely (s : Queues) : QueueOp → Prop
  | .interrupt i => ∀ r ∈ s.reading i, (s.sys.thread r.1).wq = some r.2 ∨ s.sys.mem (r.1 + WLINK) = ⟨0, 0⟩
  | _ => True

instance (threads : List Nat) (s : Queues) : (op : QueueOp) → Decidable (s.Enabled threads op)
  | .wait t _ => inferInstanceAs (Decidable (t ∈ threads ∧ (s.sys.thread t).state = .running ∧ s.reading t = none))
  | .wake _ => inferInstanceAs (Decidable True)
  | .wakeOne _ => inferInstanceAs (Decidable True)
  | .read i t => inferInstanceAs (Decidable (t ∈ threads ∧ s.reading i = none))
  | .interrupt i => inferInstanceAs (Decidable (s.reading i ≠ none))
  | .resume t => inferInstanceAs (Decidable (t ∈ s.sys.runq))
  | .preempt t => inferInstanceAs (Decidable (t ∈ threads ∧ (s.sys.thread t).state = .running))

instance (s : Queues) : (op : QueueOp) → Decidable (s.Timely op)
  | .interrupt i => inferInstanceAs (Decidable (∀ r ∈ s.reading i, _ ∨ _))
  | .wait _ _ => inferInstanceAs (Decidable True)
  | .wake _ => inferInstanceAs (Decidable True)
  | .wakeOne _ => inferInstanceAs (Decidable True)
  | .read _ _ => inferInstanceAs (Decidable True)
  | .resume _ => inferInstanceAs (Decidable True)
  | .preempt _ => inferInstanceAs (Decidable True)

def Fine (threads : List Nat) (s : Queues) : Prop := ∃ seq, s.sys.Fine threads seq

theorem inv_init (hnd : threads.Nodup) : ∃ seq, (init threads).Inv threads seq :=
  ⟨_, Machine.Ok.init hnd, fun _ _ hr => nomatch hr⟩

theorem inv_step (h0 : 0 ∉ threads) (hlen : threads.length < 2 ^ 32) (h : s.Inv threads seq)
    (hop : s.Enabled threads op) (htime : s.Timely op) : ∃ seq', (s.step op).Inv threads seq' := by
  obtain ⟨ok, hread⟩ := h
  cases op with
  | wait t q => exact ⟨_, ok.wait h0 hop.1 hop.2.1 q, hread⟩
  | wake q => exact ⟨_, ok.wake (ok.length_eq hlen q), hread⟩
  | wakeOne q =>
    cases hq : seq q with
    | nil =>
      refine ⟨seq, ?_, hread⟩
      show (s.sys.wqWakeOne q).1.Ok threads seq
      rwa [ok.wakeOne_nil hq]
    | cons t ts => exact ⟨_, ok.wakeOne hq, hread⟩
  | read i t =>
    refine ⟨seq, ok, fun j r hr => ?_⟩
    by_cases hj : j = i
    · simp only [step, hj, Function.update_self] at hr
      obtain ⟨q, -, rfl⟩ := Option.map_eq_some_iff.mp hr
      exact hop.1
    · simp only [step, Function.update_of_ne hj] at hr
      exact hread j r hr
  | interrupt i =>
    obtain ⟨⟨t, q⟩, hr⟩ := Option.ne_none_iff_exists'.mp hop
    have ht := hread i _ hr
    have hrest : ∀ j, ∀ r ∈ Function.update s.reading i none j, r.1 ∈ threads := by
      intro j r hj
      by_cases hji : j = i
      · simp [hji] at hj
      · rw [Function.update_of_ne hji] at hj
        exact hread j r hj
    have hstep : s.step (.interrupt i) = ⟨s.sys.wqInterrupt q t, Function.update s.reading i none⟩ := by
      simp only [step, hr]
    rw [hstep]
    by_cases hm : t ∈ seq q
    · exact ⟨_, ok.interrupt hm, hrest⟩
    · have hwq : ¬(s.sys.thread t).wq = some q := mt (ok.member t q).mpr hm
      refine ⟨seq, ?_, hrest⟩
      show (s.sys.wqInterrupt q t).Ok threads seq
      rwa [ok.interrupt_idle hm (fun heq => h0 (heq ▸ ht)) ((htime _ hr).resolve_left hwq)]
  | resume t => exact ⟨seq, ok.resume hop, hread⟩
  | preempt t => exact ⟨seq, ok.preempt hop.1 hop.2, hread⟩

theorem timely_of_fine (hlen : threads.length < 2 ^ 32) (h : s.Inv threads seq)
    (hfine : (s.step op).Fine threads) : s.Timely op := by
  obtain ⟨seq', hf⟩ := hfine
  cases op with
  | interrupt i =>
    rintro ⟨t, q⟩ hr
    simp only [step, show s.reading i = some (t, q) from hr] at hf
    by_contra hlate
    rw [not_or] at hlate
    obtain ⟨hwq, hlink⟩ := hlate
    have hsome : (s.sys.thread t).wq ≠ none := fun hnone => hlink (h.ok.unlinked t hnone)
    obtain ⟨q', hq'⟩ := Option.ne_none_iff_exists'.mp hsome
    have hne : q' ≠ q := fun heq => hwq (hq'.trans (congrArg some heq))
    exact h.ok.interrupt_stale hlen ((h.ok.member t q').mpr hq') hne hlink seq' hf
  | _ => trivial

/-- The queues are as they should be after every step of a run exactly if every `wq_interrupt` of the run is in time. -/
theorem wait_queues_iff (hnd : threads.Nodup) (h0 : 0 ∉ threads) (hlen : threads.length < 2 ^ 32) (ops : List QueueOp)
    (hops : Steps.Along step (Enabled threads) (init threads) ops) :
    Steps.Along step (fun s op => (s.step op).Fine threads) (init threads) ops ↔
      Steps.Along step Timely (init threads) ops := by
  refine Steps.Along.exact (I := fun s => ∃ seq, s.Inv threads seq) ?_ ?_ ?_ (inv_init hnd) hops
  · rintro s op ⟨seq, h⟩ hop htime
    exact inv_step h0 hlen h hop htime
  · rintro s ⟨seq, h⟩
    exact ⟨seq, h.ok.fine hlen⟩
  · rintro s op ⟨seq, h⟩ - hfine
    exact timely_of_fine hlen h hfine

theorem wait_queues_interrupted :
    Steps.Along step (fun s op => (s.step op).Fine [65536, 131072]) (init [65536, 131072])
      [.resume 65536, .resume 131072, .wait 65536 1, .read 131072 65536, .interrupt 131072, .resume 65536,
        .wait 65536 2] :=
  (wait_queues_iff (by decide) (by decide) (by decide) _ (by decide)).mpr (by decide)

/-- Thread 65536, which thread 196608 found sleeping in queue 1, has been woken and sleeps in queue 2, behind thread
131072. -/
def requeue : List QueueOp :=
  [.resume 65536, .resume 131072, .resume 196608, .wait 65536 1, .read 196608 65536, .wakeOne 1, .resume 65536,
    .wait 131072 2, .wait 65536 2]

/-- The interrupt locks the queue in which the thread was found, and unlinks it from the one in which it sleeps. -/
theorem interrupt_after_requeue :
    Steps.Along step (Enabled [65536, 131072, 196608]) (init [65536, 131072, 196608])
        (requeue ++ [.interrupt 196608]) ∧
      ¬((requeue ++ [QueueOp.interrupt 196608]).foldl step (init [65536, 131072, 196608])).Fine [65536, 131072,
        196608] := by
  have hrun : Steps.Along step (fun s op => s.Enabled [65536, 131072, 196608] op ∧ s.Timely op)
      (init [65536, 131072, 196608]) requeue := by
    decide
  obtain ⟨seq, hinv⟩ := hrun.invariant (I := fun s => ∃ seq, s.Inv [65536, 131072, 196608] seq)
    (fun s op h hop => by
      obtain ⟨seq, h⟩ := h
      exact inv_step (by decide) (by decide) h hop.1 hop.2)
    (inv_init (by decide))
  refine ⟨by decide, fun hfine => ?_⟩
  rw [List.foldl_concat] at hfine
  have htime := timely_of_fine (by decide) hinv hfine
  revert htime
  decide

end Queues
end Novino.Sched
