import Novino.Sched.Wq

/-! Signals to one thread (`thread_signal` and `thread_wait` in `kernel/sched/threads.c`). The sections under
    `sig.lock` are steps; a signaller that has to wait until the thread has left its processor keeps the lock, so that
    its section has two steps with no other section between them. What is not under the lock is a step of its own: the
    test of `yield` in `thread_wait`, and `yield = 0` in `schedule_handler`, which comes after the thread has been put
    on
    a run queue. -/

namespace Novino.Sched

inductive Place
  /-- On a processor, and not in `thread_wait`. -/
  | running
  /-- In `thread_wait`, between the section and the test of `yield`. -/
  | testing
  /-- On its way to the scheduler in `thread_wait`. -/
  | leaving
  | away
deriving DecidableEq, Repr

/-- The thread. `blocked` and `wakes` are not in the source: they count the waits that blocked and how often a signal
    made the thread ready. -/
structure Signalled where
  recv : Bool
  wait : Bool
  yield : Bool
  state : ThreadState
  place : Place
  /-- A signaller holds the lock and waits for `yield` to become 0. -/
  spinning : Bool
  /-- How often the thread is in a run queue. -/
  runq : Nat
  /-- The processors that the thread has left and that have not set `yield` to 0 yet. -/
  late : Nat
  blocked : Nat
  wakes : Nat
deriving DecidableEq, Repr

/-- The steps of `thread_wait`, of the scheduler and of `thread_signal`. -/
inductive SignalOp
  | wait
  | test
  | switch
  /-- A processor that the thread has left sets `yield` to 0. -/
  | clear
  | signal
  /-- The signaller has seen `yield` 0 and makes the thread ready. -/
  | ready
  | dispatch
deriving DecidableEq, Repr

namespace Signalled

def init : Signalled := ⟨false, false, false, .running, .running, false, 0, 0, 0, 0⟩

variable (s : Signalled)

/-- The section of `thread_wait`. -/
def threadWait : Signalled :=
  if s.recv then { s with recv := false, wait := false, place := .testing }
  else { s with yield := true, wait := true, state := .blocking, place := .testing, blocked := s.blocked + 1 }

/-- `schedule_handler` for the thread that leaves, before it sets `yield` to 0. -/
def scheduleOut : Signalled :=
  if s.state = .running then { s with state := .ready, runq := s.runq + 1, late := s.late + 1, place := .away }
  else { s with late := s.late + 1, place := .away }

/-- `thread_signal`, until it is done or waits for `yield`. -/
def threadSignal : Signalled :=
  if s.wait then { s with wait := false, recv := false, spinning := true } else { s with recv := true }

/-- The end of `thread_signal` for a thread that waits. -/
def makeReady : Signalled :=
  { s with state := .ready, runq := s.runq + 1, wakes := s.wakes + 1, spinning := false }

def scheduleIn : Signalled := { s with state := .running, runq := s.runq - 1, place := .running }

def step : SignalOp → Signalled
  | .wait => s.threadWait
  | .test => { s with place := if s.yield then .leaving else .running }
  | .switch => s.scheduleOut
  | .clear => { s with yield := false, late := s.late - 1 }
  | .signal => s.threadSignal
  | .ready => s.makeReady
  | .dispatch => s.scheduleIn

def Enabled : SignalOp → Prop
  | .wait => s.place = .running ∧ s.spinning = false
  | .test => s.place = .testing
  -- Interrupts are off from the section to the test.
  | .switch => s.place = .running ∨ s.place = .leaving
  | .clear => 0 < s.late
  | .signal => s.spinning = false
  | .ready => s.spinning = true ∧ s.yield = false
  | .dispatch => 0 < s.runq

instance : (op : SignalOp) → Decidable (s.Enabled op)
  | .wait => inferInstanceAs (Decidable (s.place = .running ∧ s.spinning = false))
  | .test => inferInstanceAs (Decidable (s.place = .testing))
  | .switch => inferInstanceAs (Decidable (s.place = .running ∨ s.place = .leaving))
  | .clear => inferInstanceAs (Decidable (0 < s.late))
  | .signal => inferInstanceAs (Decidable (s.spinning = false))
  | .ready => inferInstanceAs (Decidable (s.spinning = true ∧ s.yield = false))
  | .dispatch => inferInstanceAs (Decidable (0 < s.runq))

end Signalled
end Novino.Sched
