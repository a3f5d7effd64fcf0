import Novino.Main.Lists

/-! Wait queues (`kernel/sched/wq.c`). A thread that waits is in the list of one queue and sleeps; a wake-up takes it
    from the list and puts it on a run queue. What a function does while it holds the queue's lock is one step; in
    `wq_wait` the scheduler gives it up, after the thread has left the processor. -/

namespace Novino.Sched

open Main

inductive ThreadState
  | ready
  | running
  | sleeping
  | blocking
  | terminated
deriving DecidableEq, Repr

/-- What the wait queues use of a `thread_t`, but for its `wlink`. Threads and queues are named by their addresses. -/
structure Thread where
  state : ThreadState
  wq : Option Nat
  /-- Whether `signals` has SIGINTR. -/
  intr : Bool
deriving DecidableEq, Repr

def WLINK : Nat := 128

def EINTR : Int := 29

/-- The threads, the lists of the wait queues, and the threads on the run queues. `sleeps` and `wakes` are not in the
source: they count how often a thread went to sleep and was woken. -/
structure Machine where
  mem : Links
  list : Nat → KList
  thread : Nat → Thread
  runq : List Nat
  sleeps : Nat → Nat
  wakes : Nat → Nat

namespace Machine

/-- New threads on the run queue, and empty wait queues (`thread_create`, `wq_init`). -/
def init (threads : List Nat) : Machine where
  mem := fun _ => ⟨0, 0⟩
  list := fun _ => listInit WLINK
  thread := fun _ => ⟨.ready, none, false⟩
  runq := threads
  sleeps := fun _ => 0
  wakes := fun _ => 0

section
variable (s : Machine) (q t : Nat)

def withList (r : Links × KList) : Machine := { s with mem := r.1, list := Function.update s.list q r.2 }

/-- What a wake-up does with a thread that it took from a list: `state = READY`, `wq = 0`, `scheduler_append`. -/
def wakeUp (intr : Bool) : Machine :=
  { s with
    thread := Function.update s.thread t ⟨.ready, none, intr⟩
    runq := s.runq ++ [t]
    wakes := Function.update s.wakes t (s.wakes t + 1) }

def wqWait : Machine :=
  let r := listAppend s.mem (s.list q) t
  { s.withList q r with
    thread := Function.update s.thread t ⟨.sleeping, some q, (s.thread t).intr⟩
    sleeps := Function.update s.sleeps t (s.sleeps t + 1) }

def wqWakeOne : Machine × Nat :=
  let r := listPop s.mem (s.list q)
  let s := s.withList q (r.1, r.2.1)
  if r.2.2 ≠ 0 then (s.wakeUp r.2.2 (s.thread r.2.2).intr, 1) else (s, 0)

def wakeLoop : Nat → Machine → Machine
  | 0, s => s
  | n + 1, s =>
    let r := s.wqWakeOne q
    if r.2 ≠ 0 then wakeLoop n r.1 else r.1

def wqWake : Machine := wakeLoop q ((s.list q).length + 1) s

/-- What `wq_interrupt` does to thread `t` once it has locked the queue `q`. -/
def wqInterrupt : Machine :=
  let r := listRemove s.mem (s.list q) t
  let s := s.withList q (r.1, r.2.1)
  if r.2.2 then s.wakeUp t true else s

/-- A thread leaves the run queue and goes on; one that slept returns from `wq_wait`, with -EINTR if it was
    interrupted (the second component). -/
def resume : Machine × Int :=
  ({ s with
      thread := Function.update s.thread t ⟨.running, (s.thread t).wq, false⟩
      runq := s.runq.erase t },
    if (s.thread t).intr then -EINTR else 0)

/-- A running thread is put back on the run queue (`schedule_handler`). -/
def preempt : Machine :=
  { s with
    thread := Function.update s.thread t { s.thread t with state := .ready }
    runq := s.runq ++ [t] }

end

end Machine

/-- Calls that run at the same time. `reading` has the calls of `wq_interrupt` under way: the thread to interrupt and
the queue read from it. -/
structure Queues where
  sys : Machine
  reading : Nat → Option (Nat × Nat)

/-- A section under the lock of a queue, or a change of threads. -/
inductive QueueOp
  | wait (t q : Nat)
  | wake (q : Nat)
  | wakeOne (q : Nat)
  /-- Thread `i` calls `wq_interrupt(t)` and reads the queue of `t`. -/
  | read (i t : Nat)
  /-- Thread `i` locks the queue that it read and removes the thread from its list. -/
  | interrupt (i : Nat)
  | resume (t : Nat)
  | preempt (t : Nat)
deriving DecidableEq, Repr

namespace Queues

def init (threads : List Nat) : Queues := ⟨.init threads, fun _ => none⟩

def step (s : Queues) : QueueOp → Queues
  | .wait t q => { s with sys := s.sys.wqWait q t }
  | .wake q => { s with sys := s.sys.wqWake q }
  | .wakeOne q => { s with sys := (s.sys.wqWakeOne q).1 }
  | .read i t => { s with reading := Function.update s.reading i (((s.sys.thread t).wq).map fun q => (t, q)) }
  | .interrupt i =>
    match s.reading i with
    | none => s
    | some (t, q) => ⟨s.sys.wqInterrupt q t, Function.update s.reading i none⟩
  | .resume t => { s with sys := (s.sys.resume t).1 }
  | .preempt t => { s with sys := s.sys.preempt t }

/-- A step that can be taken: only running threads make calls, one at a time, and the scheduler takes threads from the
run queue. -/
def Enabled (threads : List Nat) (s : Queues) : QueueOp → Prop
  | .wait t _ => t ∈ threads ∧ (s.sys.thread t).state = .running ∧ s.reading t = none
  | .wake _ | .wakeOne _ => True
  | .read i t => t ∈ threads ∧ s.reading i = none
  | .interrupt i => s.reading i ≠ none
  | .resume t => t ∈ s.sys.runq
  | .preempt t => t ∈ threads ∧ (s.sys.thread t).state = .running

end Queues
end Novino.Sched
