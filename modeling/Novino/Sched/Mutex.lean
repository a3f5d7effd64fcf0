import Novino.Sched.Wq

/-! Mutexes (`kernel/sched/mutex.c`). A mutex is named by its wait queue. A call holds the queue's lock from its test
    of `free` until it is done or asleep, so that each of `acquire_mutex` and `release_mutex` is one step, and the
    return
    of a thread that slept in `acquire_mutex` is another one; `wq_interrupt` has two, as in the wait queues. -/

namespace Novino.Sched

def EBUSY : Int := 3

/-- A call of `acquire_mutex` that has not returned. `before`, not in the source, says whether the caller held the mutex
already. -/
structure AcquireCall where
  mutex : Nat
  before : Bool
deriving DecidableEq, Repr

structure Acquired where
  mutex : Nat
  before : Bool
  status : Int
deriving DecidableEq, Repr

/-- The mutexes and the threads that use them. `held`, `call` and `result` are not in the source: what a thread has
acquired and not released, the call that it is in, and the result of its last one. -/
structure Mutexes where
  sys : Machine
  free : Nat → Bool
  held : Nat → Nat → Bool
  call : Nat → Option AcquireCall
  result : Nat → Option Acquired
  reading : Nat → Option (Nat × Nat)

namespace Mutexes

/-- What the wait queues see. -/
def queues (s : Mutexes) : Queues := ⟨s.sys, s.reading⟩

def init (threads : List Nat) : Mutexes where
  sys := .init threads
  free := fun _ => true
  held := fun _ _ => false
  call := fun _ => none
  result := fun _ => none
  reading := fun _ => none

section
variable (s : Mutexes) (t m : Nat)

def setHeld (b : Bool) : Mutexes := { s with held := Function.update s.held t (Function.update (s.held t) m b) }

def ret (call : AcquireCall) (status : Int) : Mutexes :=
  let s := if status = 0 then s.setHeld t call.mutex true else s
  { s with
    call := Function.update s.call t none
    result := Function.update s.result t (some ⟨call.mutex, call.before, status⟩) }

/-- `acquire_mutex`, until it returns or sleeps. -/
def acquireMutex (nonblock : Bool) : Mutexes :=
  let call := ⟨m, s.held t m⟩
  if s.free m then { s with free := Function.update s.free m false }.ret t call 0
  else if nonblock then s.ret t call (-EBUSY)
  else
    { s with
      sys := s.sys.wqWait m t
      call := Function.update s.call t (some call)
      result := Function.update s.result t none }

def releaseMutex : Mutexes :=
  let r := s.sys.wqWakeOne m
  { s.setHeld t m false with
    sys := r.1
    free := if r.2 = 0 then Function.update s.free m true else s.free }

/-- A thread goes on; if it slept in `acquire_mutex`, the call returns what `wq_wait` returned. -/
def resume : Mutexes :=
  let r := s.sys.resume t
  match s.call t with
  | none => { s with sys := r.1 }
  | some call => { s with sys := r.1 }.ret t call r.2

end

end Mutexes

/-- The calls on mutexes, the two parts of `wq_interrupt`, and the changes of threads. -/
inductive MutexOp
  | acquire (t m : Nat) (nonblock : Bool)
  | release (t m : Nat)
  | read (i t : Nat)
  | interrupt (i : Nat)
  | resume (t : Nat)
  | preempt (t : Nat)
deriving DecidableEq, Repr

namespace Mutexes

/-- A step of `wq_interrupt`. -/
def queueStep (s : Mutexes) (op : QueueOp) : Mutexes :=
  { s with sys := (s.queues.step op).sys, reading := (s.queues.step op).reading }

def step (s : Mutexes) : MutexOp → Mutexes
  | .acquire t m nonblock => s.acquireMutex t m nonblock
  | .release t m => s.releaseMutex t m
  | .read i t => s.queueStep (.read i t)
  | .interrupt i => s.queueStep (.interrupt i)
  | .resume t => s.resume t
  | .preempt t => { s with sys := s.sys.preempt t }

/-- A step that can be taken: running threads make calls and release only what they hold. -/
def Enabled (threads : List Nat) (s : Mutexes) : MutexOp → Prop
  | .acquire t _ _ => t ∈ threads ∧ (s.sys.thread t).state = .running ∧ s.reading t = none
  | .release t m => t ∈ threads ∧ (s.sys.thread t).state = .running ∧ s.reading t = none ∧ s.held t m = true
  | .read i t => t ∈ threads ∧ s.reading i = none
  | .interrupt i => s.reading i ≠ none
  | .resume t => t ∈ s.sys.runq
  | .preempt t => t ∈ threads ∧ (s.sys.thread t).state = .running

end Mutexes
end Novino.Sched
