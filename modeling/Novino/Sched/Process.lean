import Novino.Sched.Wq

/-! Parents that wait for their children (`process_wait` and `process_exit` in `kernel/sched/process.c`). A process is
    named by its pid and makes one of these calls at a time. The scan of the children, which holds the lock of the
    process, is one step, and so are going to sleep, the adoption of one child, the change of the state and the wake-up.
    The threads, the files and the address space of a process are left out. -/

namespace Novino.Sched

def ESRCH : Int := 11

inductive WaitAt
  | scan
  /-- The scan found nothing: before `wq_wait(&self->wait)`. -/
  | sleep
  | asleep
  /-- On a run queue again, interrupted or not. -/
  | woken (intr : Bool)
deriving DecidableEq, Repr

structure WaitCall where
  pid : Int
  place : WaitAt
deriving DecidableEq, Repr

structure ExitCall where
  status : Int
  /-- `parent`, as it was at the start of the call. -/
  parent : Nat
  /-- The state is TERMINATED: before `wq_wake(&parent->wait)`. -/
  terminated : Bool
deriving DecidableEq, Repr

/-- The processes by their numbers, with the calls of `process_wait` and `process_exit` that are going on. -/
structure Processes where
  /-- `next_pid`. -/
  next : Nat
  parent : Nat → Nat
  children : Nat → List Nat
  /-- Whether `state` is TERMINATED. -/
  terminated : Nat → Bool
  exitcode : Nat → Int
  wait : Nat → Option WaitCall
  exit : Nat → Option ExitCall
  /-- The last result of `process_wait` of a process, and the status it stored. -/
  result : Nat → Option (Int × Option Int)

/-- A call begins, or goes on by one step (`waiting`, `exiting`). -/
inductive ProcessOp
  | create (p : Nat)
  | wait (p : Nat) (pid : Int)
  | exit (c : Nat) (status : Int)
  | waiting (p : Nat)
  | exiting (c : Nat)
  /-- `wq_interrupt` for `p`, while it sleeps in `process_wait`. -/
  | interrupt (p : Nat)
deriving DecidableEq, Repr

namespace Processes

def init : Processes where
  next := 1
  parent := fun _ => 0
  children := fun _ => []
  terminated := fun _ => false
  exitcode := fun _ => 0
  wait := fun _ => none
  exit := fun _ => none
  result := fun _ => none

variable (s : Processes) (p c : Nat)

def answers (pid : Int) (c : Nat) : Bool := pid == 0 || (c : Int) == pid

def setWait (call : Option WaitCall) : Processes := { s with wait := Function.update s.wait p call }

def setExit (call : Option ExitCall) : Processes := { s with exit := Function.update s.exit c call }

def waitReturns (result : Int) (status : Option Int) : Processes :=
  { s.setWait p none with result := Function.update s.result p (some (result, status)) }

def create : Processes :=
  { s with
    next := s.next + 1
    parent := Function.update s.parent s.next p
    children := Function.update s.children p (s.next :: s.children p)
    terminated := Function.update s.terminated s.next false }

def scan (pid : Int) : Processes :=
  match (s.children p).find? fun c => s.terminated c && answers pid c with
  | some c =>
    { s.waitReturns p c (some (s.exitcode c)) with children := Function.update s.children p ((s.children p).erase c) }
  | none =>
    if (s.children p).all (fun c => (c : Int) != pid) ∧ pid ≠ 0 then s.waitReturns p (-ESRCH) none
    else s.setWait p (some ⟨pid, .sleep⟩)

def waitStep (w : WaitCall) : Processes :=
  match w.place with
  | .scan => s.scan p w.pid
  | .sleep => s.setWait p (some ⟨w.pid, .asleep⟩)
  | .asleep => s
  | .woken true => s.waitReturns p (-EINTR) none
  | .woken false => s.setWait p (some ⟨w.pid, .scan⟩)

def rouse (intr : Bool) : Processes :=
  match s.wait p with
  | some ⟨pid, .asleep⟩ => s.setWait p (some ⟨pid, .woken intr⟩)
  | _ => s

def adopt (g : Nat) (rest : List Nat) (parent : Nat) : Processes :=
  let children := Function.update s.children c rest
  { s with
    parent := Function.update s.parent g parent
    children := Function.update children parent (children parent ++ [g]) }

def exitStep (e : ExitCall) : Processes :=
  if e.terminated then (s.rouse e.parent false).setExit c none
  else
    match s.children c with
    | g :: rest => s.adopt c g rest e.parent
    | [] =>
      { s.setExit c (some { e with terminated := true }) with
        exitcode := Function.update s.exitcode c e.status
        terminated := Function.update s.terminated c true }

def step : ProcessOp → Processes
  | .create p => s.create p
  | .wait p pid => s.setWait p (some ⟨pid, .scan⟩)
  | .exit c status => s.setExit c (some ⟨status, s.parent c, false⟩)
  | .waiting p => (s.wait p).elim s (s.waitStep p)
  | .exiting c => (s.exit c).elim s (s.exitStep c)
  | .interrupt p => s.rouse p true

def Runs : Prop := p < s.next ∧ s.terminated p = false ∧ s.wait p = none ∧ s.exit p = none

instance (p : Nat) : Decidable (s.Runs p) := inferInstanceAs (Decidable (_ ∧ _ ∧ _ ∧ _))

/-- A step that can be taken; the first process does not exit. -/
def Enabled : ProcessOp → Prop
  | .create p | .wait p _ => s.Runs p
  | .exit c _ => c ≠ 0 ∧ s.Runs c
  | .waiting p => s.wait p ≠ none
  | .exiting c => s.exit c ≠ none
  | .interrupt _ => True

instance : (op : ProcessOp) → Decidable (s.Enabled op)
  | .create p | .wait p _ => inferInstanceAs (Decidable (s.Runs p))
  | .exit c _ => inferInstanceAs (Decidable (c ≠ 0 ∧ s.Runs c))
  | .waiting p => inferInstanceAs (Decidable (s.wait p ≠ none))
  | .exiting c => inferInstanceAs (Decidable (s.exit c ≠ none))
  | .interrupt _ => inferInstanceAs (Decidable True)

end Processes
end Novino.Sched
