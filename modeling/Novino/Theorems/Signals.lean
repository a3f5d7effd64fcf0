import Novino.Lib.Steps
import Novino.Sched.Signals

/-! `thread_signal` and `thread_wait` are a binary semaphore, `recv` and `wait` its token and its waiting thread, as
long
    as no processor is late. -/

namespace Novino.Sched

/-- A binary semaphore for one thread: a signal is kept as a token unless the thread waits, and a wait takes the token
    or blocks. -/
structure Semaphore where
  token : Bool
  waiting : Bool
deriving DecidableEq, Repr

namespace Semaphore

def init : Semaphore := ⟨false, false⟩

def signal (a : Semaphore) : Semaphore := if a.waiting then { a with waiting := false } else { a with token := true }

def wait (a : Semaphore) : Semaphore := if a.token then { a with token := false } else { a with waiting := true }

def step (a : Semaphore) : SignalOp → Semaphore
  | .signal => a.signal
  | .wait => a.wait
  | _ => a

end Semaphore

namespace Signalled

def track (p : Signalled × Semaphore) (op : SignalOp) : Signalled × Semaphore := (p.1.step op, p.2.step op)

/-- The thread waits, and no signal has made it ready. -/
def isBlocked (s : Signalled) : Bool := s.wait || s.spinning

/-- The flags are the semaphore's, never both set; the thread is made ready once for each wait that blocked; such a wait
does not return before, the others do not go to the scheduler, and `yield` is set while the thread is on its way. -/
structure Follows (s : Signalled) (a : Semaphore) : Prop where
  token : s.recv = a.token
  waiting : s.wait = a.waiting
  notBoth : ¬(s.recv = true ∧ s.wait = true)
  ready : s.wakes + (if s.isBlocked then 1 else 0) = s.blocked
  queued : s.runq ≤ 1
  blocked : s.isBlocked = true → s.place ≠ .running
  leaving : s.place = .leaving → s.isBlocked = true
  marked : s.isBlocked = true → s.place ≠ .away → s.yield = true

structure Inv (s : Signalled) (a : Semaphore) : Prop extends Follows s a where
  spin : ¬(s.wait = true ∧ s.spinning = true)
  asleep : s.isBlocked = true → s.state = .blocking ∧ s.runq = 0
  yield : s.yield = true → s.isBlocked = true
  running : s.place ≠ .away → s.isBlocked = false → s.state = .running ∧ s.runq = 0
  away : s.place = .away → s.isBlocked = false → s.state = .ready ∧ s.runq = 1

/-- A processor that the thread has left sets `yield` to 0 before the thread sets it in `thread_wait`, or not until it
has left its next processor. -/
def Timely (s : Signalled) : SignalOp → Prop
  | .clear => s.yield = true → s.place = .away
  | _ => True

variable {s : Signalled} {a : Semaphore}

namespace Inv

theorem init : init.Inv .init := by
  refine ⟨⟨?_, ?_, ?_, ?_, ?_, ?_, ?_, ?_⟩, ?_, ?_, ?_, ?_, ?_⟩ <;> simp [Signalled.init, Semaphore.init, isBlocked]

section
variable (h : s.Inv a)
include h

theorem wait (hop : s.Enabled .wait) : s.threadWait.Inv a.wait := by
  obtain ⟨hplace, hspin⟩ := hop
  have hfree : s.isBlocked = false := by
    by_contra hb
    exact h.blocked (Bool.not_eq_false _ ▸ hb) hplace
  have hwait : s.wait = false := (Bool.or_eq_false_iff.mp hfree).1
  have hyield : s.yield = false := by
    by_contra hy
    simp [h.yield (Bool.not_eq_false _ ▸ hy)] at hfree
  have hready := h.ready
  obtain ⟨hstate, hrunq⟩ := h.running (by simp [hplace]) hfree
  have hwaiting := h.waiting
  cases hrecv : s.recv with
  | true =>
    have htoken : a.token = true := h.token.symm.trans hrecv
    simp only [threadWait, hrecv, Semaphore.wait, htoken, if_true]
    refine ⟨⟨rfl, ?_, ?_, ?_, h.queued, ?_, ?_, ?_⟩, ?_, ?_, ?_, ?_, ?_⟩ <;> simp_all [isBlocked]
  | false =>
    have htoken : a.token = false := h.token.symm.trans hrecv
    simp only [threadWait, hrecv, Semaphore.wait, htoken, Bool.false_eq_true, if_false]
    refine ⟨⟨?_, rfl, ?_, ?_, h.queued, ?_, ?_, ?_⟩, ?_, ?_, ?_, ?_, ?_⟩ <;> simp_all [isBlocked]

theorem test (hop : s.Enabled .test) : (s.step .test).Inv a := by
  have hplace : s.place = .testing := hop
  have haway : s.place ≠ .away := by simp [hplace]
  have hyield : s.yield = s.isBlocked := by
    rw [Bool.eq_iff_iff]
    exact ⟨h.yield, fun hb => h.marked hb haway⟩
  have hrunning := h.running haway
  refine ⟨⟨h.token, h.waiting, h.notBoth, h.ready, h.queued, ?_, ?_, fun hb _ => h.marked hb haway⟩, h.spin, h.asleep,
    h.yield, fun _ => hrunning, ?_⟩
  · intro hb
    have hb : s.isBlocked = true := hb
    simp [step, hyield, hb]
  · intro hl
    by_contra hf
    have hf : s.isBlocked = false := Bool.eq_false_iff.mpr hf
    simp [step, hyield, hf] at hl
  · intro hl
    cases hy : s.yield <;> simp [step, hy] at hl

theorem switch (hop : s.Enabled .switch) : s.scheduleOut.Inv a := by
  have haway : s.place ≠ .away := by
    rintro hp
    simp [Enabled, hp] at hop
  cases hb : s.isBlocked with
  | false =>
    obtain ⟨hstate, hrunq⟩ := h.running haway hb
    have hready := h.ready
    have hyield := h.yield
    simp only [scheduleOut, hstate, if_true]
    refine ⟨⟨h.token, h.waiting, h.notBoth, h.ready, ?_, ?_, ?_, ?_⟩, h.spin, ?_, h.yield, ?_, ?_⟩ <;>
      simp_all [isBlocked]
  | true =>
    have hstate : s.state ≠ .running := by simp [(h.asleep hb).1]
    simp only [scheduleOut, hstate, if_false]
    refine ⟨⟨h.token, h.waiting, h.notBoth, h.ready, h.queued, ?_, ?_, ?_⟩, h.spin, h.asleep, h.yield, ?_,
      fun _ hf => nomatch hb.symm.trans hf⟩ <;> simp_all [isBlocked]

theorem clear (htime : s.Timely .clear) : (s.step .clear).Inv a := by
  refine ⟨⟨h.token, h.waiting, h.notBoth, h.ready, h.queued, h.blocked, h.leaving, fun hb hp => ?_⟩, h.spin, h.asleep,
    nofun, h.running, h.away⟩
  exact absurd (htime (h.marked hb hp)) hp

theorem signal (hop : s.Enabled .signal) : s.threadSignal.Inv a.signal := by
  have hspin : s.spinning = false := hop
  have hnot := h.notBoth
  have hready := h.ready
  have hasleep := h.asleep
  have hblocked := h.blocked
  have hleaving := h.leaving
  have hmarked := h.marked
  have hyield := h.yield
  have hrunning := h.running
  have haway := h.away
  have htoken := h.token
  have hwaiting := h.waiting
  cases hwait : s.wait <;>
    simp only [threadSignal, Semaphore.signal, ← hwaiting, hwait, Bool.false_eq_true, if_true, if_false] <;>
    refine ⟨⟨?_, ?_, ?_, ?_, h.queued, ?_, ?_, ?_⟩, ?_, ?_, ?_, ?_, ?_⟩ <;> simp_all [isBlocked]

theorem finish (hop : s.Enabled .ready) : s.makeReady.Inv a := by
  obtain ⟨hspin, hyield⟩ := hop
  have hb : s.isBlocked = true := by simp [isBlocked, hspin]
  have hplace : s.place = .away := by
    by_contra hp
    simp [h.marked hb hp] at hyield
  have hwait : s.wait = false := by
    have hnot := h.spin
    simpa [hspin] using hnot
  have hasleep := h.asleep hb
  have hready := h.ready
  refine ⟨⟨h.token, h.waiting, h.notBoth, ?_, ?_, ?_, ?_, ?_⟩, ?_, ?_, ?_, ?_, ?_⟩ <;> simp_all [makeReady, isBlocked]

theorem dispatch (hop : s.Enabled .dispatch) : s.scheduleIn.Inv a := by
  have hrunq : 0 < s.runq := hop
  have hfree : s.isBlocked = false := by
    by_contra hb
    have hzero := (h.asleep (Bool.not_eq_false _ ▸ hb)).2
    omega
  have hplace : s.place = .away := by
    by_contra hp
    have hzero := (h.running hp hfree).2
    omega
  have haway := h.away hplace hfree
  have hready := h.ready
  have hyield := h.yield
  refine ⟨⟨h.token, h.waiting, h.notBoth, h.ready, ?_, ?_, ?_, ?_⟩, h.spin, ?_, h.yield, ?_, ?_⟩ <;>
    simp_all [scheduleIn, isBlocked]

theorem step {op : SignalOp} (hop : s.Enabled op) (htime : s.Timely op) : (s.step op).Inv (a.step op) := by
  cases op with
  | wait => exact h.wait hop
  | test => exact h.test hop
  | switch => exact h.switch hop
  | clear => exact h.clear htime
  | signal => exact h.signal hop
  | ready => exact h.finish hop
  | dispatch => exact h.dispatch hop

theorem timely {op : SignalOp} {b : Semaphore} (hf : (s.step op).Follows b) : s.Timely op := by
  cases op with
  | clear =>
    intro hy
    by_contra hp
    exact Bool.false_ne_true (hf.marked (h.yield hy) hp)
  | _ => trivial

end

end Inv

/-- The code follows the semaphore along a run exactly if every `yield = 0` of the run is in time. -/
theorem signals_semaphore_iff (ops : List SignalOp)
    (hops : Steps.Along track (fun p op => p.1.Enabled op) (init, .init) ops) :
    Steps.Along track (fun p op => (track p op).1.Follows (track p op).2) (init, .init) ops ↔
      Steps.Along track (fun p op => p.1.Timely op) (init, .init) ops :=
  Steps.Along.exact (I := fun p => p.1.Inv p.2) (G := fun p => p.1.Follows p.2)
    (fun _ _ h hop htime => h.step hop htime)
    (fun _ h => h.toFollows) (fun _ _ h _ hf => h.timely hf) Inv.init hops

instance (s : Signalled) : (op : SignalOp) → Decidable (s.Timely op)
  | .clear => inferInstanceAs (Decidable (s.yield = true → s.place = .away))
  | .wait | .test | .switch | .signal | .ready | .dispatch => inferInstanceAs (Decidable True)

/-- A signal arrives before the thread has left its processor, and a second one before it runs again. -/
theorem signals_semaphore_handshake :
    Steps.Along track (fun p op => (track p op).1.Follows (track p op).2) (init, .init)
      [.switch, .dispatch, .clear, .wait, .signal, .test, .switch, .clear, .ready, .signal, .dispatch, .wait, .test] :=
  (signals_semaphore_iff _ (by decide)).mpr (by decide)

/-- The thread is preempted, runs on another processor and calls `thread_wait`, before the first processor sets `yield`
to 0. -/
def lateClear : List SignalOp := [.switch, .dispatch, .wait, .clear, .test]

/-- The call returns, and there was no signal. -/
theorem wait_returns_unsignalled :
    Steps.Along step Enabled init lateClear ∧
      SignalOp.signal ∉ lateClear ∧
      (lateClear.foldl step init).place = .running ∧ (lateClear.foldl step init).wait = true ∧
      ¬(lateClear.foldl track (init, .init)).1.Follows (lateClear.foldl track (init, .init)).2 :=
  ⟨by decide, by decide, by decide, by decide, fun hf => hf.blocked (by decide) (by decide)⟩

end Signalled
end Novino.Sched
