import Novino.Lib.Wheel

/-! The scheduler of one core (`kernel/sched/scheduler.c`). Queues hold the addresses of threads and are sequences, as
    the kernel's lists are. Each function holds the scheduler's lock, so that a call is one step. -/

namespace Novino.Sched

inductive Priority where
  | idle
  | low
  | mid
  | high
  | srt
deriving DecidableEq, Repr

namespace Priority

def value : Priority → Nat
  | idle => 0
  | low => 1
  | mid => 2
  | high => 3
  | srt => 4

/-- The `max_count` that `thread_priority` sets with a priority. -/
def maxCount : Priority → Fin 9
  | idle => 0
  | low => 8
  | mid => 4
  | high => 2
  | srt => 0

end Priority

/-- The queues of one core: `srt` before `std`, a wheel of nine queues of which `index` is the present one, and
`idle`. -/
structure Scheduler where
  frequency : Nat
  threadIdle : Nat
  threadCurrent : Nat
  idle : List Nat := []
  srt : List Nat := []
  std : Fin 9 → List Nat := fun _ => []
  index : Fin 9 := 0
  count : Nat := 0

namespace Scheduler

/-- `scheduler_append` on the core that was selected. The last component says whether the core is interrupted. -/
def schedulerAppend (s : Scheduler) (priority : Nat → Priority) (thread : Nat) : Scheduler × Bool :=
  let pc := priority s.threadCurrent
  let pn := priority thread
  match pn with
  | .srt => ({ s with srt := s.srt ++ [thread] }, pc.value < pn.value)
  | .idle => ({ s with idle := s.idle ++ [thread] }, false)
  | _ =>
    let index := s.index + pn.maxCount
    ({ s with std := Function.update s.std index (s.std index ++ [thread]), count := s.count + 1 }, pc = .idle)

/-- The loop of `scheduler_next`; `fuel` bounds the number of queues that it looks at. -/
def nextLoop : Nat → Scheduler → Option Scheduler
  | 0, _ => none
  | fuel + 1, s =>
    match s.std s.index with
    | thread :: queue =>
      some { s with std := Function.update s.std s.index queue, count := s.count - 1, threadCurrent := thread }
    | [] => nextLoop fuel { s with index := s.index + 1 }

def schedulerNext (s : Scheduler) (fuel : Nat) : Option (Scheduler × Nat) :=
  match s.srt with
  | thread :: srt => some ({ s with srt := srt, threadCurrent := thread }, 0)
  | [] =>
    if s.count ≠ 0 then (s.nextLoop fuel).map fun s => (s, s.frequency / 100)
    else
      match s.idle with
      | thread :: idle => some ({ s with idle := idle, threadCurrent := thread }, s.frequency / 100)
      | [] => some ({ s with threadCurrent := s.threadIdle }, 0)

end Scheduler
end Novino.Sched
