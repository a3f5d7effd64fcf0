import Novino.Sched.Mutex
import Novino.Theorems.Queues

/-! Mutual exclusion. A mutex that is released while threads wait goes to the first of them, unless an interruption
    takes it from the queue in time. -/

namespace Novino.Sched
namespace Mutexes

open Main

variable {threads : List Nat} {s : Mutexes} {seq : Nat → List Nat} {t m : Nat}

/-- Thread `t` has been woken in its call of `acquire_mutex`, and not by an interruption. -/
def Granted (s : Mutexes) (t m : Nat) : Prop :=
  (∃ b, s.call t = some ⟨m, b⟩) ∧ (s.sys.thread t).state ≠ .sleeping ∧ (s.sys.thread t).intr = false

def Holds (s : Mutexes) (t m : Nat) : Prop := s.held t m = true ∨ s.Granted t m

/-- At most one thread has a mutex, no thread waits for a free mutex, and no thread has one by a call that returned an
error. -/
structure Safe (s : Mutexes) : Prop where
  one : ∀ m t t', s.Holds t m → s.Holds t' m → t = t'
  free : ∀ m, s.free m = true ↔ ∀ t, ¬s.Holds t m
  idle : ∀ m t, (s.sys.thread t).wq = some m → s.free m = false
  failed : ∀ t o, s.result t = some o → o.status < 0 → s.Holds t o.mutex → o.before = true

/-- What every step keeps; `owner m` is the thread that has the mutex `m`. -/
structure Inv (threads : List Nat) (s : Mutexes) (seq : Nat → List Nat) (owner : Nat → Option Nat) : Prop where
  ok : s.sys.Ok threads seq
  holds : ∀ t m, s.Holds t m ↔ owner m = some t
  free : ∀ m, s.free m = true ↔ owner m = none
  idle : ∀ t m, t ∈ seq m → s.free m = false
  waiting : ∀ t m, t ∈ seq m → ∃ b, s.call t = some ⟨m, b⟩
  inCall : ∀ t, (s.sys.thread t).state = .running → s.call t = none
  intr : ∀ t, (s.sys.thread t).intr = true → (s.sys.thread t).state = .ready
  before : ∀ t c, s.call t = some c → s.held t c.mutex = true → c.before = true
  done : ∀ t o, s.result t = some o → s.call t = none
  failed : ∀ t o, s.result t = some o → o.status < 0 → s.held t o.mutex = true → o.before = true

theorem setHeld_apply (b : Bool) (t' m' : Nat) :
    (s.setHeld t m b).held t' m' = if t' = t ∧ m' = m then b else s.held t' m' := by
  unfold setHeld
  by_cases ht : t' = t
  · by_cases hm : m' = m <;> simp [ht, hm]
  · simp [ht]

theorem held_of_setHeld {t' m' : Nat} (h : (s.setHeld t m false).held t' m' = true) : s.held t' m' = true := by
  rw [setHeld_apply] at h
  split_ifs at h
  exact h

section
variable (call : AcquireCall) (status : Int)

@[simp] theorem ret_sys : (s.ret t call status).sys = s.sys := by
  unfold ret setHeld
  split <;> rfl

@[simp] theorem ret_free : (s.ret t call status).free = s.free := by
  unfold ret setHeld
  split <;> rfl

@[simp] theorem ret_reading : (s.ret t call status).reading = s.reading := by
  unfold ret setHeld
  split <;> rfl

@[simp] theorem ret_call : (s.ret t call status).call = Function.update s.call t none := by
  unfold ret setHeld
  split <;> rfl

@[simp] theorem ret_result :
    (s.ret t call status).result = Function.update s.result t (some ⟨call.mutex, call.before, status⟩) := by
  unfold ret setHeld
  split <;> rfl

theorem ret_held (t' m' : Nat) :
    (s.ret t call status).held t' m' =
      if status = 0 ∧ t' = t ∧ m' = call.mutex then true else s.held t' m' := by
  unfold ret
  by_cases h : status = 0
  · simp [h, setHeld_apply]
  · simp [h]

end

namespace Inv

variable {owner : Nat → Option Nat}

theorem init (hnd : threads.Nodup) : (init threads).Inv threads (fun _ => []) fun _ => none where
  ok := Machine.Ok.init hnd
  holds t m := by simp [Holds, Granted, Mutexes.init]
  free m := by simp [Mutexes.init]
  idle t m h := absurd h List.not_mem_nil
  waiting t m h := absurd h List.not_mem_nil
  inCall t _ := rfl
  intr t h := by simp [Mutexes.init, Machine.init] at h
  before t c h := by simp [Mutexes.init] at h
  done t o h := by simp [Mutexes.init] at h
  failed t o h := by simp [Mutexes.init] at h

section
variable (h : s.Inv threads seq owner)
include h

theorem safe : s.Safe where
  one m t t' ht ht' := Option.some.inj (((h.holds t m).mp ht).symm.trans ((h.holds t' m).mp ht'))
  free m := by
    simp only [h.free m, h.holds, Option.eq_none_iff_forall_ne_some, ne_eq]
  idle m t hwq := h.idle t m ((h.ok.member t m).mpr hwq)
  failed t o ho hneg hh := by
    refine h.failed t o ho hneg (hh.resolve_right ?_)
    rintro ⟨⟨b, hc⟩, -⟩
    rw [h.done t o ho] at hc
    cases hc

theorem acquire_free (hrun : (s.sys.thread t).state = .running) (hfree : s.free m = true) :
    ({ s with free := Function.update s.free m false }.ret t ⟨m, s.held t m⟩ 0).Inv threads seq
      (Function.update owner m (some t)) := by
  have hcall : Function.update s.call t none = s.call := h.inCall t hrun ▸ Function.update_eq_self t s.call
  refine ⟨by simpa using h.ok, fun t' m' => ?_, fun m' => ?_, fun t' m' hm => ?_, by simpa [hcall] using h.waiting,
    by simpa [hcall] using h.inCall, by simpa using h.intr, fun t' c hc hheld => ?_, fun t' o ho => ?_,
    fun t' o ho hneg hheld => ?_⟩
  · have hold := h.holds t' m'
    simp only [Holds, Granted, ret_held, ret_call, ret_sys, hcall, true_and] at hold ⊢
    by_cases hm : m' = m
    · subst hm
      rw [(h.free m').mp hfree] at hold
      by_cases ht : t' = t
      · simp [ht]
      · simpa [ht, Ne.symm ht] using hold
    · simpa [hm] using hold
  · by_cases hm : m' = m
    · simp [hm]
    · simpa [hm] using h.free m'
  · have hold := h.idle t' m' hm
    have hne : m' ≠ m := fun heq => by simp [heq, hfree] at hold
    simpa [hne] using hold
  · rw [ret_call, hcall] at hc
    have hne : t' ≠ t := fun heq => by simp [heq, h.inCall t hrun] at hc
    exact h.before t' c hc (by simpa [ret_held, hne] using hheld)
  · rw [ret_call, hcall]
    by_cases ht : t' = t
    · exact ht ▸ h.inCall t hrun
    · exact h.done t' o (by simpa [ht] using ho)
  · by_cases ht : t' = t
    · simp only [ret_result, ht, Function.update_self, Option.some.injEq] at ho
      subst ho
      exact absurd hneg (Int.lt_irrefl 0)
    · exact h.failed t' o (by simpa [ht] using ho) hneg (by simpa [ret_held, ht] using hheld)

theorem acquire_busy (hrun : (s.sys.thread t).state = .running) :
    (s.ret t ⟨m, s.held t m⟩ (-EBUSY)).Inv threads seq owner := by
  have hcall : Function.update s.call t none = s.call := h.inCall t hrun ▸ Function.update_eq_self t s.call
  have hheld : (s.ret t ⟨m, s.held t m⟩ (-EBUSY)).held = s.held := by
    funext t' m'
    rw [ret_held, if_neg fun hs => absurd hs.1 (by decide)]
  refine ⟨by simpa using h.ok, fun t' m' => ?_, by simpa using h.free, by simpa using h.idle,
    by simpa [hcall] using h.waiting, by simpa [hcall] using h.inCall, by simpa using h.intr,
    by simpa [hcall, hheld] using h.before, fun t' o ho => ?_, fun t' o ho hneg hh => ?_⟩
  · simpa [Holds, Granted, hheld, hcall] using h.holds t' m'
  · rw [ret_call, hcall]
    by_cases ht : t' = t
    · exact ht ▸ h.inCall t hrun
    · exact h.done t' o (by simpa [ht] using ho)
  · rw [hheld] at hh
    by_cases ht : t' = t
    · simp only [ret_result, ht, Function.update_self, Option.some.injEq] at ho
      subst ho
      exact ht ▸ hh
    · exact h.failed t' o (by simpa [ht] using ho) hneg hh

theorem acquire_wait (h0 : 0 ∉ threads) (ht : t ∈ threads)
    (hrun : (s.sys.thread t).state = .running) (hfree : s.free m = false) :
    { s with
      sys := s.sys.wqWait m t
      call := Function.update s.call t (some ⟨m, s.held t m⟩)
      result := Function.update s.result t none }.Inv threads (Function.update seq m (seq m ++ [t])) owner := by
  have hnew : ∀ {t' m'}, t' ∈ Function.update seq m (seq m ++ [t]) m' ↔ t' ∈ seq m' ∨ (m' = m ∧ t' = t) := by
    intro t' m'
    by_cases hm : m' = m <;> simp [hm]
  have hintr : (s.sys.thread t).intr = false := by
    by_contra hi
    have hready := h.intr t (by simpa using hi)
    rw [hrun] at hready
    cases hready
  have hthread : (s.sys.wqWait m t).thread = Function.update s.sys.thread t ⟨.sleeping, some m, false⟩ := by
    rw [← hintr]
    rfl
  refine ⟨h.ok.wait h0 ht hrun m, fun t' m' => ?_, h.free, fun t' m' hm => ?_, fun t' m' hm => ?_, fun t' hr => ?_,
    fun t' hi => ?_, fun t' c hc hh => ?_, fun t' o ho => ?_, fun t' o ho hneg hh => ?_⟩
  · have hold := h.holds t' m'
    simp only [Holds, Granted, hthread] at hold ⊢
    by_cases ht : t' = t
    · subst ht
      simpa [h.inCall t' hrun] using hold
    · simpa [ht] using hold
  · rcases hnew.mp hm with hm | ⟨rfl, rfl⟩
    · exact h.idle t' m' hm
    · exact hfree
  · rcases hnew.mp hm with hm | ⟨rfl, rfl⟩
    · have hne : t' ≠ t := fun heq => by
        obtain ⟨b, hb⟩ := h.waiting t' m' hm
        rw [heq, h.inCall t hrun] at hb
        cases hb
      simpa [hne] using h.waiting t' m' hm
    · exact ⟨_, Function.update_self ..⟩
  · simp only [hthread] at hr
    have hne : t' ≠ t := fun heq => by simp [heq] at hr
    simpa [hne] using h.inCall t' (by simpa [hne] using hr)
  · simp only [hthread] at hi ⊢
    have hne : t' ≠ t := fun heq => by simp [heq] at hi
    simpa [hne] using h.intr t' (by simpa [hne] using hi)
  · by_cases ht : t' = t
    · simp only [ht, Function.update_self, Option.some.injEq] at hc
      subst hc
      exact ht ▸ hh
    · exact h.before t' c (by simpa [ht] using hc) hh
  · have hne : t' ≠ t := fun heq => by simp [heq] at ho
    simpa [hne] using h.done t' o (by simpa [hne] using ho)
  · have hne : t' ≠ t := fun heq => by simp [heq] at ho
    exact h.failed t' o (by simpa [hne] using ho) hneg hh

theorem acquire (h0 : 0 ∉ threads) (ht : t ∈ threads) (hrun : (s.sys.thread t).state = .running) (nonblock : Bool) :
    ∃ seq' owner', (s.acquireMutex t m nonblock).Inv threads seq' owner' := by
  unfold acquireMutex
  split_ifs with hfree hnb
  · exact ⟨_, _, h.acquire_free hrun hfree⟩
  · exact ⟨_, _, h.acquire_busy hrun⟩
  · exact ⟨_, _, h.acquire_wait h0 ht hrun (by simpa using hfree)⟩

section
variable (hrun : (s.sys.thread t).state = .running) (hheld : s.held t m = true)
include hrun hheld

theorem holds_release (t' m' : Nat) :
    ((s.setHeld t m false).held t' m' = true ∨ s.Granted t' m') ↔ Function.update owner m none m' = some t' := by
  have hold := h.holds t' m'
  rw [setHeld_apply]
  by_cases hm : m' = m
  · subst hm
    rw [(h.holds t m').mp (.inl hheld)] at hold
    rw [Function.update_self]
    by_cases ht : t' = t
    · subst ht
      have hnot : ¬s.Granted t' m' := fun hg => by
        obtain ⟨⟨b, hb⟩, -⟩ := hg
        rw [h.inCall t' hrun] at hb
        cases hb
      simp [hnot]
    · have hne : ¬some t = some t' := fun heq => ht (Option.some.inj heq).symm
      simpa [ht, Holds] using mt hold.mp hne
  · simpa [hm, Holds] using hold

theorem release_nil (hseq : seq m = []) :
    (s.releaseMutex t m).Inv threads seq (Function.update owner m none) := by
  have hstep : s.releaseMutex t m = { s.setHeld t m false with free := Function.update s.free m true } := by
    simp only [releaseMutex, h.ok.wakeOne_nil hseq]
    rfl
  rw [hstep]
  refine ⟨h.ok, h.holds_release hrun hheld, fun m' => ?_, fun t' m' hm => ?_, h.waiting, h.inCall, h.intr,
    fun t' c hc hh => h.before t' c hc (held_of_setHeld hh), h.done,
    fun t' o ho hneg hh => h.failed t' o ho hneg (held_of_setHeld hh)⟩
  · by_cases hm : m' = m
    · simp [hm]
    · simpa [hm] using h.free m'
  · have hne : m' ≠ m := fun heq => by simp [heq, hseq] at hm
    simpa [hne] using h.idle t' m' hm

theorem release_cons {w : Nat} {ws : List Nat} (hseq : seq m = w :: ws) :
    (s.releaseMutex t m).Inv threads (Function.update seq m ws) (Function.update owner m (some w)) := by
  have hw : w ∈ seq m := hseq ▸ List.mem_cons_self
  have hwq : (s.sys.thread w).wq = some m := (h.ok.member w m).mp hw
  have hsleep : (s.sys.thread w).state = .sleeping := (h.ok.asleep w).mpr (by simp [hwq])
  have hintr : (s.sys.thread w).intr = false := by
    by_contra hi
    have hready := h.intr w (by simpa using hi)
    rw [hsleep] at hready
    cases hready
  have hok := h.ok.wakeOne hseq
  have hthread : (s.sys.wqWakeOne m).1.thread = Function.update s.sys.thread w ⟨.ready, none, false⟩ := by
    rw [h.ok.wakeOne_cons hseq, hintr]
    rfl
  have hstep : s.releaseMutex t m = { s.setHeld t m false with sys := (s.sys.wqWakeOne m).1 } := by
    simp only [releaseMutex, h.ok.wakeOne_cons hseq, Nat.one_ne_zero, if_false]
    rfl
  have hsub : ∀ {t' m'}, t' ∈ Function.update seq m ws m' → t' ∈ seq m' := by
    intro t' m' hm
    by_cases heq : m' = m
    · rw [heq, Function.update_self] at hm
      exact heq ▸ hseq ▸ List.mem_cons_of_mem w hm
    · rwa [Function.update_of_ne heq] at hm
  rw [hstep]
  refine ⟨hok, fun t' m' => ?_, fun m' => ?_, fun t' m' hm => h.idle t' m' (hsub hm),
    fun t' m' hm => h.waiting t' m' (hsub hm), fun t' hr => ?_, fun t' hi => ?_,
    fun t' c hc hh => h.before t' c hc (held_of_setHeld hh), h.done,
    fun t' o ho hneg hh => h.failed t' o ho hneg (held_of_setHeld hh)⟩
  · have hold := h.holds_release hrun hheld t' m'
    obtain ⟨b, hb⟩ := h.waiting w m hw
    simp only [Holds, Granted, hthread] at hold ⊢
    by_cases ht : t' = w
    · subst ht
      by_cases hm : m' = m
      · subst hm
        simp [setHeld, hb]
      · have hne : ∀ b', ¬some (⟨m, b⟩ : AcquireCall) = some ⟨m', b'⟩ := fun b' heq => by
          simp only [Option.some.injEq, AcquireCall.mk.injEq] at heq
          exact hm heq.1.symm
        simpa [setHeld, hb, hm, Ne.symm hm] using hold
    · by_cases hm : m' = m
      · subst hm
        simpa [ht, Ne.symm ht, setHeld] using hold
      · simpa [ht, hm, setHeld] using hold
  · have hfree := h.free m'
    by_cases hm : m' = m
    · subst hm
      rw [(h.holds t m').mp (.inl hheld)] at hfree
      simpa [setHeld] using hfree
    · simpa [hm, setHeld] using hfree
  · simp only [hthread] at hr
    have hne : t' ≠ w := fun heq => by simp [heq] at hr
    exact h.inCall t' (by simpa [hne] using hr)
  · simp only [hthread] at hi ⊢
    have hne : t' ≠ w := fun heq => by simp [heq] at hi
    simpa [hne] using h.intr t' (by simpa [hne] using hi)

theorem release :
    ∃ seq' owner', (s.releaseMutex t m).Inv threads seq' owner' := by
  cases hseq : seq m with
  | nil => exact ⟨_, _, h.release_nil hrun hheld hseq⟩
  | cons w ws => exact ⟨_, _, h.release_cons hrun hheld hseq⟩

end

theorem interrupt {q : Nat} (ht0 : t ≠ 0) (htime : (s.sys.thread t).wq = some q ∨ s.sys.mem (t + WLINK) = ⟨0, 0⟩) :
    ∃ seq', { s with sys := s.sys.wqInterrupt q t }.Inv threads seq' owner := by
  by_cases hwq : (s.sys.thread t).wq = some q
  · have ht : t ∈ seq q := (h.ok.member t q).mpr hwq
    have hsleep : (s.sys.thread t).state = .sleeping := (h.ok.asleep t).mpr (by simp [hwq])
    have hthread : (s.sys.wqInterrupt q t).thread = Function.update s.sys.thread t ⟨.ready, none, true⟩ := by
      rw [h.ok.interrupt_eq ht]
      rfl
    have hsub : ∀ {t' m'}, t' ∈ Function.update seq q ((seq q).erase t) m' → t' ∈ seq m' := by
      intro t' m' hm
      by_cases heq : m' = q
      · rw [heq, Function.update_self] at hm
        exact heq ▸ List.mem_of_mem_erase hm
      · rwa [Function.update_of_ne heq] at hm
    refine ⟨Function.update seq q ((seq q).erase t), ?_⟩
    refine ⟨h.ok.interrupt ht, fun t' m' => ?_, h.free, fun t' m' hm => h.idle t' m' (hsub hm),
      fun t' m' hm => h.waiting t' m' (hsub hm), fun t' hr => ?_, fun t' hi => ?_, h.before, h.done, h.failed⟩
    · have hold := h.holds t' m'
      simp only [Holds, Granted, hthread] at hold ⊢
      by_cases ht : t' = t
      · subst ht
        simpa [hsleep] using hold
      · simpa [ht] using hold
    · simp only [hthread] at hr
      have hne : t' ≠ t := fun heq => by simp [heq] at hr
      exact h.inCall t' (by simpa [hne] using hr)
    · simp only [hthread] at hi ⊢
      by_cases ht : t' = t
      · simp [ht]
      · simpa [ht] using h.intr t' (by simpa [ht] using hi)
  · refine ⟨seq, ?_⟩
    rwa [h.ok.interrupt_idle (mt (h.ok.member t q).mp hwq) ht0 (htime.resolve_left hwq)]

theorem preempt (ht : t ∈ threads) (hrun : (s.sys.thread t).state = .running) :
    { s with sys := s.sys.preempt t }.Inv threads seq owner := by
  refine ⟨h.ok.preempt ht hrun, fun t' m' => ?_, h.free, h.idle, h.waiting, fun t' hr => ?_, fun t' hi => ?_, h.before,
    h.done, h.failed⟩
  · have hold := h.holds t' m'
    simp only [Holds, Granted, Machine.preempt] at hold ⊢
    by_cases ht : t' = t
    · subst ht
      simpa [h.inCall t' hrun] using hold
    · simpa [ht] using hold
  · have hne : t' ≠ t := fun heq => by simp [Machine.preempt, heq] at hr
    exact h.inCall t' (by simpa [Machine.preempt, hne] using hr)
  · by_cases ht : t' = t
    · simp [Machine.preempt, ht]
    · simpa [Machine.preempt, ht] using h.intr t' (by simpa [Machine.preempt, ht] using hi)

theorem resume_none (ht : t ∈ s.sys.runq) (hc : s.call t = none) :
    { s with sys := (s.sys.resume t).1 }.Inv threads seq owner := by
  refine ⟨h.ok.resume ht, fun t' m' => ?_, h.free, h.idle, h.waiting, fun t' hr => ?_, fun t' hi => ?_, h.before,
    h.done, h.failed⟩
  · have hold := h.holds t' m'
    simp only [Holds, Granted, Machine.resume] at hold ⊢
    by_cases ht : t' = t
    · subst ht
      simpa [hc] using hold
    · simpa [ht] using hold
  · by_cases ht : t' = t
    · exact ht ▸ hc
    · exact h.inCall t' (by simpa [Machine.resume, ht] using hr)
  · have hne : t' ≠ t := fun heq => by simp [Machine.resume, heq] at hi
    simpa [Machine.resume, hne] using h.intr t' (by simpa [Machine.resume, hne] using hi)

theorem resume_some (ht : t ∈ s.sys.runq) {c : AcquireCall} (hc : s.call t = some c) :
    ({ s with sys := (s.sys.resume t).1 }.ret t c (s.sys.resume t).2).Inv threads seq owner := by
  have hready := h.ok.ready_of_mem ht
  have hmutex : ∀ {m'}, (∃ b, some c = some (⟨m', b⟩ : AcquireCall)) ↔ m' = c.mutex := by
    intro m'
    constructor
    · rintro ⟨b, hb⟩
      rw [Option.some.inj hb]
    · rintro rfl
      exact ⟨c.before, rfl⟩
  have hother : ∀ {t' m'}, t' ∈ seq m' → t' ≠ t := by
    rintro t' m' hm rfl
    have hsleep := (h.ok.asleep t').mpr (by simp [(h.ok.member t' m').mp hm])
    rw [hready] at hsleep
    cases hsleep
  refine ⟨by simpa using h.ok.resume ht, fun t' m' => ?_, by simpa using h.free, by simpa using h.idle,
    fun t' m' hm => ?_, fun t' hr => ?_, fun t' hi => ?_, fun t' c' hc' hh => ?_, fun t' o ho => ?_,
    fun t' o ho hneg hh => ?_⟩
  · have hold := h.holds t' m'
    simp only [Holds, Granted, ret_held, ret_sys, ret_call, Machine.resume] at hold ⊢
    by_cases ht : t' = t
    · subst ht
      rw [hc, hmutex, hready] at hold
      cases hi : (s.sys.thread t').intr with
      | false => simpa [hi, or_comm] using hold
      | true => simpa [hi, EINTR] using hold
    · simpa [ht] using hold
  · simpa [hother hm] using h.waiting t' m' hm
  · by_cases ht : t' = t
    · simp [ht]
    · simpa [ht] using h.inCall t' (by simpa [Machine.resume, ht] using hr)
  · have hne : t' ≠ t := fun heq => by simp [Machine.resume, heq] at hi
    simpa [Machine.resume, hne] using h.intr t' (by simpa [Machine.resume, hne] using hi)
  · have hne : t' ≠ t := fun heq => by simp [heq] at hc'
    exact h.before t' c' (by simpa [hne] using hc') (by simpa [ret_held, hne] using hh)
  · by_cases ht : t' = t
    · simp [ht]
    · simpa [ht] using h.done t' o (by simpa [ht] using ho)
  · by_cases ht : t' = t
    · simp only [ret_result, ht, Function.update_self, Option.some.injEq] at ho
      subst ho
      have hne : (s.sys.resume t).2 ≠ 0 := Int.ne_of_lt hneg
      rw [ret_held, if_neg fun hs => hne hs.1] at hh
      exact h.before t c hc (ht ▸ hh)
    · exact h.failed t' o (by simpa [ht] using ho) hneg (by simpa [ret_held, ht] using hh)

theorem resume (ht : t ∈ s.sys.runq) : (s.resume t).Inv threads seq owner := by
  cases hc : s.call t with
  | none =>
    simp only [Mutexes.resume, hc]
    exact h.resume_none ht hc
  | some c =>
    simp only [Mutexes.resume, hc]
    exact h.resume_some ht hc

theorem withReading (reading : Nat → Option (Nat × Nat)) : { s with reading := reading }.Inv threads seq owner :=
  ⟨h.ok, h.holds, h.free, h.idle, h.waiting, h.inCall, h.intr, h.before, h.done, h.failed⟩

end

end Inv

/-- When `wq_interrupt` has locked the queue that it read, the thread still sleeps there, or it has no neighbours in any
list. -/
def Timely (s : Mutexes) : MutexOp → Prop
  | .interrupt i => s.queues.Timely (.interrupt i)
  | _ => True

/-- What a run keeps. -/
def Kept (threads : List Nat) (s : Mutexes) : Prop :=
  ∃ seq owner, s.Inv threads seq owner ∧ s.queues.Inv threads seq

@[simp] theorem acquireMutex_reading (nonblock : Bool) : (s.acquireMutex t m nonblock).reading = s.reading := by
  unfold acquireMutex
  split_ifs <;> simp

@[simp] theorem resume_reading : (s.resume t).reading = s.reading := by
  unfold resume
  cases s.call t <;> simp

theorem kept_of_reading {s' : Mutexes} (h : s.queues.Inv threads seq) (hread : s'.reading = s.reading)
    (h' : ∃ seq owner, s'.Inv threads seq owner) : s'.Kept threads := by
  obtain ⟨seq', owner', h'⟩ := h'
  exact ⟨seq', owner', h', h'.ok, fun i r hr => h.reading i r ((congrFun hread i).symm.trans hr)⟩

theorem Kept.step (h0 : 0 ∉ threads) (hlen : threads.length < 2 ^ 32) {op : MutexOp} (h : s.Kept threads)
    (hop : s.Enabled threads op) (htime : s.Timely op) : (s.step op).Kept threads := by
  obtain ⟨seq, owner, h, hq⟩ := h
  cases op with
  | acquire t m nonblock => exact kept_of_reading hq (by simp [Mutexes.step]) (h.acquire h0 hop.1 hop.2.1 nonblock)
  | release t m => exact kept_of_reading hq rfl (h.release hop.2.1 hop.2.2.2)
  | read i t =>
    have hread : Queues.Enabled threads s.queues (.read i t) := hop
    obtain ⟨seq', hq'⟩ := Queues.inv_step h0 hlen hq hread trivial
    exact ⟨seq, owner, h.withReading _, h.ok, hq'.reading⟩
  | interrupt i =>
    have hint : Queues.Enabled threads s.queues (.interrupt i) := hop
    obtain ⟨_, hq'⟩ := Queues.inv_step h0 hlen hq hint htime
    obtain ⟨⟨t, q⟩, hr⟩ := Option.ne_none_iff_exists'.mp hop
    obtain ⟨seq', h'⟩ := h.interrupt (fun heq => h0 (heq ▸ hq.reading i _ hr)) (htime _ hr)
    have hsys : (s.queues.step (.interrupt i)).sys = s.sys.wqInterrupt q t := by
      simp only [Queues.step, queues, hr]
    refine ⟨seq', owner, ?_, hsys ▸ h'.ok, hq'.reading⟩
    simp only [Mutexes.step, queueStep, hsys]
    exact h'.withReading _
  | resume t => exact kept_of_reading hq (by simp [Mutexes.step]) ⟨seq, owner, h.resume hop⟩
  | preempt t => exact kept_of_reading hq rfl ⟨seq, owner, h.preempt hop.1 hop.2⟩

/-- After every step of a run there is mutual exclusion and the wait queues are as they should be, exactly if every
`wq_interrupt` of the run is in time. -/
theorem mutexes_safe_iff (hnd : threads.Nodup) (h0 : 0 ∉ threads) (hlen : threads.length < 2 ^ 32) (ops : List MutexOp)
    (hops : Steps.Along step (Enabled threads) (init threads) ops) :
    Steps.Along step (fun s op => (s.step op).Safe ∧ (s.step op).queues.Fine threads) (init threads) ops ↔
      Steps.Along step Timely (init threads) ops := by
  refine Steps.Along.exact (I := Kept threads) (G := fun s => s.Safe ∧ s.queues.Fine threads)
    (fun s op h hop htime => h.step h0 hlen hop htime) ?_ ?_
    ⟨_, _, Inv.init hnd, Machine.Ok.init hnd, fun _ _ hr => nomatch hr⟩ hops
  · rintro s ⟨seq, owner, h, hq⟩
    exact ⟨h.safe, seq, hq.ok.fine hlen⟩
  · rintro s op ⟨seq, owner, h, hq⟩ - ⟨-, hfine⟩
    cases op with
    | interrupt i => exact Queues.timely_of_fine hlen hq hfine
    | _ => trivial

instance (threads : List Nat) (s : Mutexes) : (op : MutexOp) → Decidable (s.Enabled threads op)
  | .acquire t _ _ => inferInstanceAs (Decidable (t ∈ threads ∧ (s.sys.thread t).state = .running ∧ s.reading t = none))
  | .release t m => inferInstanceAs
    (Decidable (t ∈ threads ∧ (s.sys.thread t).state = .running ∧ s.reading t = none ∧ s.held t m = true))
  | .read i t => inferInstanceAs (Decidable (t ∈ threads ∧ s.reading i = none))
  | .interrupt i => inferInstanceAs (Decidable (s.reading i ≠ none))
  | .resume t => inferInstanceAs (Decidable (t ∈ s.sys.runq))
  | .preempt t => inferInstanceAs (Decidable (t ∈ threads ∧ (s.sys.thread t).state = .running))

instance (s : Mutexes) : (op : MutexOp) → Decidable (s.Timely op)
  | .interrupt i => inferInstanceAs (Decidable (s.queues.Timely (.interrupt i)))
  | .acquire _ _ _ | .release _ _ | .read _ _ | .resume _ | .preempt _ => inferInstanceAs (Decidable True)

/-- Two threads wait for a mutex; one is interrupted, and the other one gets it when it is released. -/
theorem mutexes_safe_passed_on :
    Steps.Along step (fun s op => (s.step op).Safe ∧ (s.step op).queues.Fine [65536, 131072, 196608])
      (init [65536, 131072, 196608])
      [.resume 65536, .resume 131072, .resume 196608, .acquire 65536 1 false, .acquire 131072 1 false,
        .acquire 196608 1 false, .read 65536 131072, .interrupt 65536, .release 65536 1, .resume 131072,
        .resume 196608, .acquire 131072 1 true, .release 196608 1] :=
  (mutexes_safe_iff (by decide) (by decide) (by decide) _ (by decide)).mpr (by decide)

/-- Thread 196608 has read that thread 65536 waits for mutex 1. This thread gets the mutex and waits for mutex 2, behind
thread 131072, when it is removed from the list of mutex 1. It calls `acquire_mutex` again, and both mutexes are
released. -/
def lateInterrupt : List MutexOp :=
  [.resume 65536, .resume 131072, .resume 196608, .acquire 196608 2 false, .acquire 131072 1 false,
    .acquire 65536 1 false, .read 196608 65536, .release 131072 1, .resume 65536, .acquire 131072 2 false,
    .acquire 65536 2 false, .interrupt 196608, .resume 65536, .acquire 65536 2 false, .release 196608 2,
    .resume 131072, .release 131072 2]

/-- A thread sleeps in the queue of a mutex that is free. -/
theorem mutex_free_waited :
    Steps.Along step (Enabled [65536, 131072, 196608]) (init [65536, 131072, 196608]) lateInterrupt ∧
      ((lateInterrupt.foldl step (init [65536, 131072, 196608])).sys.thread 65536).wq = some 2 ∧
      (lateInterrupt.foldl step (init [65536, 131072, 196608])).free 2 = true ∧
      ¬(lateInterrupt.foldl step (init [65536, 131072, 196608])).Safe := by
  have hwq : ((lateInterrupt.foldl step (init [65536, 131072, 196608])).sys.thread 65536).wq = some 2 := by decide
  have hfree : (lateInterrupt.foldl step (init [65536, 131072, 196608])).free 2 = true := by decide
  exact ⟨by decide, hwq, hfree, fun hsafe => absurd hfree (by simp [hsafe.idle 2 65536 hwq])⟩

end Mutexes
end Novino.Sched
