import Novino.Lib.Steps
import Novino.Sched.Scheduler

/-! The scheduler: the standard queues are a wheel, no thread is lost or picked twice, and no thread overtakes another
    one more than four times. -/

namespace Novino.Sched

open Steps

namespace Scheduler

variable {s s' : Scheduler} {priority : Nat → Priority} {thread fuel ticks : Nat} {w : Wheel Nat 9} {queue : List Nat}

/-! ### The wheel of standard queues -/

def wheel (s : Scheduler) : Wheel Nat 9 := ⟨s.std, s.index⟩

def Standard (p : Priority) : Prop := p ≠ .idle ∧ p ≠ .srt

instance (p : Priority) : Decidable (Standard p) := inferInstanceAs (Decidable (_ ∧ _))

theorem two_le_maxCount {p : Priority} (h : Standard p) : 2 ≤ p.maxCount.val := by
  cases p with
  | idle => exact absurd rfl h.1
  | srt => exact absurd rfl h.2
  | low | mid | high => decide

inductive Source where
  | srt
  | std
  | idle
  | none
deriving DecidableEq, Repr

def source (s : Scheduler) : Source :=
  if s.srt ≠ [] then .srt else if s.count ≠ 0 then .std else if s.idle ≠ [] then .idle else .none

def take (s : Scheduler) (w : Wheel Nat 9) (thread : Nat) (queue : List Nat) : Scheduler :=
  { s with std := (w.set w.index queue).queues, index := w.index, count := s.count - 1, threadCurrent := thread }

theorem nextLoop_eq (hw : s.wheel.seek fuel = some w)
    (hq : w.queues w.index = thread :: queue) : s.nextLoop fuel = some (s.take w thread queue) := by
  induction fuel generalizing s with
  | zero => cases hw
  | succ fuel ih =>
    rw [Wheel.seek] at hw
    rw [nextLoop]
    split at hw
    · rename_i hnil
      rw [show s.std s.index = [] from hnil]
      exact ih (s := { s with index := s.index + 1 }) hw
    · cases hw
      rw [show s.std s.index = thread :: queue from hq]
      rfl

/-- The counter is the number of threads in the standard queues, and each thread is in one place there at most. -/
structure Sound (s : Scheduler) : Prop where
  count : s.count = ∑ q, (s.std q).length
  single : ∀ x, s.wheel.Single x

def Absent (s : Scheduler) (thread : Nat) : Prop := thread ∉ s.srt ∧ thread ∉ s.idle ∧ ∀ q, thread ∉ s.std q

instance : Decidable (s.Absent thread) := inferInstanceAs (Decidable (_ ∧ _ ∧ _))

def queued (s : Scheduler) (thread : Nat) : Nat :=
  s.srt.count thread + s.idle.count thread + ∑ q, (s.std q).count thread

theorem append_cases (s : Scheduler) (priority : Nat → Priority) (thread : Nat) :
    (Standard (priority thread) ∧ (s.schedulerAppend priority thread).1 =
      { s with std := (s.wheel.push (priority thread).maxCount thread).queues, count := s.count + 1 }) ∨
    (¬Standard (priority thread) ∧ ((s.schedulerAppend priority thread).1 = { s with srt := s.srt ++ [thread] } ∨
      (s.schedulerAppend priority thread).1 = { s with idle := s.idle ++ [thread] })) := by
  unfold schedulerAppend
  cases priority thread with
  | idle => exact .inr ⟨fun h => h.1 rfl, .inr rfl⟩
  | srt => exact .inr ⟨fun h => h.2 rfl, .inl rfl⟩
  | low | mid | high => exact .inl ⟨by decide, rfl⟩

inductive Next (s : Scheduler) : Scheduler → Prop where
  | srt {thread : Nat} {srt : List Nat} (from_ : s.source = .srt) (hq : s.srt = thread :: srt) :
    Next s { s with srt := srt, threadCurrent := thread }
  | std {w : Wheel Nat 9} {thread : Nat} {queue : List Nat} (from_ : s.source = .std) (hw : s.wheel.seek 9 = some w)
    (hq : w.queues w.index = thread :: queue) : Next s (s.take w thread queue)
  | idle {thread : Nat} {idle : List Nat} (from_ : s.source = .idle) (hq : s.idle = thread :: idle) :
    Next s { s with idle := idle, threadCurrent := thread }
  | none (from_ : s.source = .none) : Next s { s with threadCurrent := s.threadIdle }

theorem Sound.exists_next (hs : Sound s) : ∃ s' ticks, s.schedulerNext 9 = some (s', ticks) ∧ Next s s' := by
  unfold schedulerNext
  have hsource : s.source = if s.srt ≠ [] then .srt else if s.count ≠ 0 then .std else if s.idle ≠ [] then .idle
    else .none := rfl
  cases hsrt : s.srt with
  | cons thread srt =>
    rw [hsrt, if_pos (List.cons_ne_nil _ _)] at hsource
    exact ⟨_, _, rfl, Next.srt hsource hsrt⟩
  | nil =>
    rw [hsrt, if_neg fun h => h rfl] at hsource
    by_cases hc : s.count = 0
    · rw [if_neg fun h => h hc] at hsource ⊢
      cases hidle : s.idle with
      | cons thread idle =>
        rw [hidle, if_pos (List.cons_ne_nil _ _)] at hsource
        have hnext := Next.idle hsource hidle
        rw [hsrt] at hnext
        exact ⟨_, _, rfl, hnext⟩
      | nil =>
        rw [hidle, if_neg fun h => h rfl] at hsource
        have hnext := Next.none hsource
        rw [hsrt, hidle] at hnext
        exact ⟨_, _, rfl, hnext⟩
    · rw [if_pos hc] at hsource ⊢
      obtain ⟨q, hq⟩ := Wheel.exists_of_sum_length (w := s.wheel) (hs.count ▸ hc)
      obtain ⟨w, hw⟩ := Wheel.exists_seek_once hq
      obtain ⟨thread, queue, heq⟩ := List.exists_cons_of_ne_nil (Wheel.seek_index hw)
      rw [nextLoop_eq hw heq]
      exact ⟨_, _, rfl, Next.std hsource hw heq⟩

theorem Sound.append (hs : Sound s) (h : s.Absent thread) : Sound (s.schedulerAppend priority thread).1 := by
  rcases append_cases s priority thread with ⟨-, heq⟩ | ⟨-, heq | heq⟩
  · rw [heq]
    refine ⟨?_, fun x => Wheel.Single.push (hs.single x) h.2.2⟩
    have hsum := Wheel.sum_push (w := s.wheel) (k := (priority thread).maxCount) (z := thread) List.length
    rw [List.length_append, List.length_singleton] at hsum
    have hcount : s.count = ∑ q, (s.wheel.queues q).length := hs.count
    show s.count + 1 = ∑ q, ((s.wheel.push (priority thread).maxCount thread).queues q).length
    omega
  · rw [heq]
    exact ⟨hs.count, hs.single⟩
  · rw [heq]
    exact ⟨hs.count, hs.single⟩

theorem sum_take (hw : s.wheel.seek fuel = some w)
    (hq : w.queues w.index = thread :: queue) (f : List Nat → Nat) :
    (∑ q, f ((s.take w thread queue).std q)) + f (thread :: queue) = (∑ q, f (s.std q)) + f queue := by
  have hsum : (∑ q, f ((w.set w.index queue).queues q)) + f (w.queues w.index) = (∑ q, f (w.queues q)) + f queue :=
    Wheel.sum_set f
  rw [hq, Wheel.seek_queues hw] at hsum
  exact hsum

theorem Sound.next (hs : Sound s) (h : Next s s') : Sound s' := by
  cases h with
  | srt | idle | none => exact ⟨hs.count, hs.single⟩
  | @std w thread queue _ hw hq =>
    have hsum := sum_take hw hq List.length
    have hold := hs.count
    rw [List.length_cons] at hsum
    refine ⟨show s.count - 1 = _ by omega, fun x => ?_⟩
    have hx : w.Single x := by
      unfold Wheel.Single
      rw [Wheel.seek_queues hw]
      exact hs.single x
    exact hx.pop hq

theorem queued_append (x : Nat) :
    (s.schedulerAppend priority thread).1.queued x = s.queued x + [thread].count x := by
  unfold queued
  rcases append_cases s priority thread with ⟨-, heq⟩ | ⟨-, heq | heq⟩
  · rw [heq]
    have hsum := Wheel.sum_push (w := s.wheel) (k := (priority thread).maxCount) (z := thread) (List.count x)
    rw [List.count_append] at hsum
    have hstd : ∑ q, (s.wheel.queues q).count x = ∑ q, (s.std q).count x := rfl
    simp only
    omega
  · rw [heq]
    simp only [List.count_append]
    omega
  · rw [heq]
    simp only [List.count_append]
    omega

theorem queued_next (h : Next s s') (x : Nat) :
    s'.queued x + (if s.source = .none then 0 else [s'.threadCurrent].count x) = s.queued x := by
  have hcons : ∀ (a : Nat) (l : List Nat), (a :: l).count x = l.count x + [a].count x := fun a l => by
    rw [← List.singleton_append, List.count_append, Nat.add_comm]
  unfold queued
  cases h with
  | @srt thread queue hsrc hq | @idle thread queue hsrc hq =>
    rw [hsrc, if_neg (by decide), hq, hcons thread queue]
    simp only
    omega
  | none hsrc => rw [hsrc, if_pos rfl, Nat.add_zero]
  | @std w thread queue hsrc hw hq =>
    have hsum := sum_take hw hq (List.count x)
    rw [hcons] at hsum
    rw [hsrc, if_neg (by decide)]
    have hrest : (s.take w thread queue).srt = s.srt ∧ (s.take w thread queue).idle = s.idle ∧
        (s.take w thread queue).threadCurrent = thread := ⟨rfl, rfl, rfl⟩
    rw [hrest.1, hrest.2.1, hrest.2.2]
    omega

end Scheduler

inductive Event where
  | append (thread : Nat)
  | next
  | priority (thread : Nat) (p : Priority)
deriving DecidableEq, Repr

structure World where
  core : Scheduler
  priority : Nat → Priority

namespace World

open Scheduler

variable {s : World} {t u b : Nat}

def step (s : World) : Event → World
  | .append thread => { s with core := (s.core.schedulerAppend s.priority thread).1 }
  | .next => { s with core := ((s.core.schedulerNext 9).map Prod.fst).getD s.core }
  | .priority thread p => { s with priority := Function.update s.priority thread p }

def Allowed (s : World) : Event → Prop
  | .append thread => s.core.Absent thread
  | _ => True

instance (s : World) : (e : Event) → Decidable (s.Allowed e)
  | .append _ => inferInstanceAs (Decidable (Absent _ _))
  | .next => inferInstanceAs (Decidable True)
  | .priority _ _ => inferInstanceAs (Decidable True)

def pick (s : World) : Event → List (Source × Nat)
  | .next => [(s.core.source, (s.step .next).core.threadCurrent)]
  | _ => []

def picks : World → List Event → List (Source × Nat)
  | _, [] => []
  | s, e :: events => s.pick e ++ picks (s.step e) events

def taken (picks : List (Source × Nat)) : List Nat := (picks.filter (·.1 ≠ .none)).map (·.2)

theorem taken_append (l l' : List (Source × Nat)) : taken (l ++ l') = taken l ++ taken l' := by
  simp only [taken, List.filter_append, List.map_append]

theorem taken_singleton (src : Source) (thread : Nat) :
    taken [(src, thread)] = if src = .none then [] else [thread] := by
  cases src <;> rfl

def appends : Event → List Nat
  | .append thread => [thread]
  | _ => []

section
variable (hs : Sound s.core) {e : Event} {events : List Event}
include hs

theorem step_next : s.core.Next (s.step .next).core := by
  obtain ⟨s', ticks, heq, hnext⟩ := hs.exists_next
  unfold step
  rw [heq]
  exact hnext

theorem sound_step (ha : s.Allowed e) : Sound (s.step e).core := by
  cases e with
  | append thread => exact hs.append ha
  | next => exact hs.next (step_next hs)
  | priority thread p => exact hs

theorem queued_step (e : Event) (x : Nat) :
    s.core.queued x + (appends e).count x = (taken (s.pick e)).count x + (s.step e).core.queued x := by
  cases e with
  | append thread =>
    have h : (s.core.schedulerAppend s.priority thread).1.queued x = _ := queued_append x
    simp only [appends, pick, taken, List.filter_nil, List.map_nil, List.count_nil, step]
    omega
  | next =>
    have h := queued_next (step_next hs) x
    simp only [pick, taken_singleton, appends, List.count_nil]
    split at h
    · rw [if_pos ‹_›, List.count_nil]
      omega
    · rw [if_neg ‹_›]
      omega
  | priority thread p =>
    simp only [appends, pick, taken, List.filter_nil, List.map_nil, List.count_nil, step]
    omega

theorem queued_run (ha : Along step Allowed s events) (x : Nat) :
    s.core.queued x + (events.flatMap appends).count x =
      (taken (picks s events)).count x + (events.foldl step s).core.queued x := by
  induction events generalizing s with
  | nil => exact Nat.add_comm _ _
  | cons e events ih =>
    have hstep := queued_step hs e x
    have hrest := ih (sound_step hs ha.1) ha.2
    rw [List.flatMap_cons, List.count_append, List.foldl_cons, picks, taken_append, List.count_append]
    omega

theorem passes_step (h : Wheel.Passes 2 s.core.wheel u t b) (ha : s.Allowed e)
    (ht : (Source.std, t) ∉ s.pick e) :
    ∃ c, Wheel.Passes 2 (s.step e).core.wheel u t c ∧ c + (s.pick e).count (.std, u) ≤ b := by
  cases e with
  | priority thread p => exact ⟨b, h, Nat.le_refl b⟩
  | append thread =>
    refine ⟨b, ?_, Nat.le_refl b⟩
    simp only [step]
    rcases append_cases s.core s.priority thread with ⟨hstd, heq⟩ | ⟨-, heq | heq⟩
    · rw [heq]
      exact h.push ha.2.2 (by decide) (two_le_maxCount hstd)
    · rw [heq]
      exact h
    · rw [heq]
      exact h
  | next =>
    have hnext := step_next hs
    unfold pick at ht ⊢
    have hother : ∀ src ≠ Source.std, ∀ thread : Nat, [(src, thread)].count (Source.std, u) = 0 := by
      intro src hsrc thread
      refine List.count_eq_zero.mpr fun hmem => hsrc ?_
      exact (Prod.mk.inj (List.mem_singleton.mp hmem)).1.symm
    generalize (s.step .next).core = core at hnext ht ⊢
    cases hnext with
    | srt hsrc | idle hsrc | none hsrc =>
      refine ⟨b, h, ?_⟩
      rw [hsrc, hother _ (by decide)]
      exact Nat.le_refl b
    | @std w thread queue hsrc hw hq =>
      rw [hsrc] at ht ⊢
      have hne : thread ≠ t := fun heq => ht (heq ▸ List.mem_singleton_self _)
      obtain ⟨c, hc, hle⟩ := (h.seek hw).pop hq hne
      refine ⟨c, hc, ?_⟩
      have hcount : [(Source.std, thread)].count (.std, u) = if thread = u then 1 else 0 := by
        simp only [List.count_singleton, beq_iff_eq, Prod.mk.injEq, true_and]
      exact hcount ▸ hle

theorem passes_run (h : Wheel.Passes 2 s.core.wheel u t b)
    (ha : Along step Allowed s events) (ht : (Source.std, t) ∉ picks s events) :
    (picks s events).count (.std, u) ≤ b := by
  induction events generalizing s b with
  | nil => exact Nat.zero_le b
  | cons e events ih =>
    rw [picks, List.mem_append, not_or] at ht
    obtain ⟨c, hc, hle⟩ := passes_step hs h ha.1 ht.1
    have hrest := ih (sound_step hs ha.1) hc ha.2 ht.2
    rw [picks, List.count_append]
    omega

end

def Fresh (s : World) : Prop :=
  s.core.srt = [] ∧ s.core.idle = [] ∧ (∀ q, s.core.std q = []) ∧ s.core.count = 0

theorem Fresh.sound (h : s.Fresh) : Sound s.core := by
  obtain ⟨-, -, hstd, hcount⟩ := h
  refine ⟨?_, fun x p j q i hj => ?_⟩
  · rw [hcount]
    simp only [hstd, List.length_nil, Finset.sum_const_zero]
  · have hnil : s.core.wheel.queues p = [] := hstd p
    rw [hnil] at hj
    cases hj

theorem Fresh.queued (h : s.Fresh) (x : Nat) : s.core.queued x = 0 := by
  obtain ⟨hsrt, hidle, hstd, -⟩ := h
  simp only [Scheduler.queued, hsrt, hidle, hstd, List.count_nil, Finset.sum_const_zero, Nat.add_zero]

/-- After every sequence of calls the counter is right and the next search looks at nine queues at most; what was
appended was picked once or is still queued; and before a thread of the standard queues is picked, no other one is
picked from them more than four times. -/
theorem scheduler_fair (s : World) (hfresh : s.Fresh) (events : List Event) (ha : Along step Allowed s events) :
    (events.foldl step s).core.count = ∑ q, ((events.foldl step s).core.std q).length ∧
    ((events.foldl step s).core.schedulerNext 9).isSome ∧
    (∀ x, (events.flatMap appends).count x =
      (taken (picks s events)).count x + (events.foldl step s).core.queued x) ∧
    ∀ before t behind u, events = before ++ .append t :: behind →
      Standard ((before.foldl step s).priority t) → u ≠ t →
      (Source.std, t) ∉ picks ((before.foldl step s).step (.append t)) behind →
      (picks ((before.foldl step s).step (.append t)) behind).count (.std, u) ≤ 4 := by
  have hkeep : ∀ s e, Sound s.core → Allowed s e → Sound (step s e).core := fun _ _ hs ha => sound_step hs ha
  have hend : Sound (events.foldl step s).core := ha.invariant hkeep hfresh.sound
  refine ⟨hend.count, ?_, fun x => ?_, ?_⟩
  · obtain ⟨s', ticks, heq, -⟩ := hend.exists_next
    rw [heq]
    rfl
  · have hrun := queued_run hfresh.sound ha x
    rwa [hfresh.queued, Nat.zero_add] at hrun
  · rintro before t behind u rfl hstd hne hwait
    obtain ⟨hbefore, hthis, hbehind⟩ := Along.append.mp ha
    have hs := hbefore.invariant (I := fun s => Sound s.core) hkeep hfresh.sound
    have hpasses : Wheel.Passes 2 ((before.foldl step s).step (.append t)).core.wheel u t 4 := by
      have hstart := (hs.single u).passes (m := 2) (k := ((before.foldl step s).priority t).maxCount) hne
      rcases append_cases (before.foldl step s).core (before.foldl step s).priority t with ⟨-, heq⟩ | ⟨hno, -⟩
      · simp only [step, heq]
        have hmax := ((before.foldl step s).priority t).maxCount.isLt
        exact hstart.mono (by omega)
      · exact absurd hstd hno
    exact passes_run (sound_step hs hthis) hpasses hbehind hwait

def idleCore : World :=
  ⟨{ frequency := 1000000, threadIdle := 1, threadCurrent := 2, index := ⟨0, Nat.succ_pos 8⟩ }, fun _ => .high⟩

def twoHigh : List Event := [.priority 3 .low, .append 5, .append 4, .next]

def again : List Event := [.next, .append 4, .next, .append 4, .next, .append 4, .next]

/-- Thread 4 is picked four times before thread 3, with a low priority, since it is in the present queue when thread 3
is
    appended. -/
theorem scheduler_fair_four :
    (picks ((twoHigh.foldl step idleCore).step (.append 3)) again).count (.std, 4) = 4 ∧
      (picks ((twoHigh.foldl step idleCore).step (.append 3)) again).count (.std, 4) ≤ 4 := by
  have hfair := scheduler_fair idleCore ⟨rfl, rfl, fun _ => rfl, rfl⟩ (twoHigh ++ .append 3 :: again)
    (by decide +kernel)
  refine ⟨by decide +kernel, ?_⟩
  exact hfair.2.2.2 twoHigh 3 again 4 rfl (by decide +kernel) (by decide) (by decide +kernel)

/-- The higher the priority of a thread that waits, the fewer times another one is picked before it. -/
theorem waits_by_priority (hfresh : s.Fresh) {before behind : List Event} {now : World}
    (hnow : before.foldl step s = now)
    (ha : Along step Allowed s (before ++ .append t :: behind)) (hstd : Standard (now.priority t)) (hne : u ≠ t)
    (hwait : (Source.std, t) ∉ picks (now.step (.append t)) behind) :
    (picks (now.step (.append t)) behind).count (.std, u) ≤ 1 + ((now.priority t).maxCount.val - 1) / 2 := by
  subst hnow
  obtain ⟨hbefore, hthis, hbehind⟩ := Along.append.mp ha
  have hs := hbefore.invariant (I := fun s => Sound s.core) (fun _ _ hs ha => sound_step hs ha) hfresh.sound
  refine passes_run (sound_step hs hthis) ?_ hbehind hwait
  rcases append_cases (before.foldl step s).core (before.foldl step s).priority t with ⟨-, heq⟩ | ⟨hno, -⟩
  · simp only [step, heq]
    exact (hs.single u).passes hne
  · exact absurd hstd hno

theorem waits_by_priority_high :
    (picks ((twoHigh.foldl step idleCore).step (.append 6)) [.next]).count (.std, 4) ≤ 1 :=
  waits_by_priority ⟨rfl, rfl, fun _ => rfl, rfl⟩ rfl (by decide +kernel) (by decide) (by decide) (by decide +kernel)

end World
end Novino.Sched
