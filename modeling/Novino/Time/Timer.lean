import Mathlib.Algebra.Group.Nat.Defs

/-! Timers (`kernel/time/timer.c`). The time is a 64-bit number of nanoseconds, and the list of timers a sequence. Each
    function holds the lock of the timers, apart from the first test of a tick, so that a call is one step; a callback
    is made under the lock and does not call back into the timers. -/

namespace Novino.Time

def EINVAL : Int := 24

def MARGIN : Nat := 500000

structure Timer where
  addr : Nat
  period : Nat
  callback : Bool
  deadline : Nat := 0
deriving DecidableEq, Repr

/-- The list of active timers, and the deadline up to which a tick need not look at it. -/
structure Timers where
  timers : List Timer := []
  nextDeadline : Nat := 2 ^ 64 - 1
deriving DecidableEq, Repr

/-- `dt < 0`, where `dt` is the signed number `ts - deadline + 500000`. -/
def Early (ts deadline : Nat) : Prop := 2 ^ 63 ≤ (ts + (2 ^ 64 - deadline) + MARGIN) % 2 ^ 64

instance (ts deadline : Nat) : Decidable (Early ts deadline) := inferInstanceAs (Decidable (_ ≤ _))

namespace Timers

def headDeadline : List Timer → Nat
  | [] => 0
  | item :: _ => item.deadline

/-- The loop of `timer_tick`. The last component has the timers whose callback was called, in order. -/
def tickLoop (ts : Nat) : List Timer → Nat → List Timer → Timers × List Timer
  | [], next, fired => (⟨[], next⟩, fired)
  | item :: timers, next, fired =>
    if Early ts item.deadline then (⟨item :: timers, next⟩, fired)
    else tickLoop ts timers (headDeadline timers) (fired ++ [item])

def timerTick (s : Timers) (ts : Nat) : Timers × List Timer :=
  if s.nextDeadline = 0 then (s, [])
  else if Early ts s.nextDeadline then (s, [])
  else tickLoop ts s.timers s.nextDeadline []

/-- The timer is put before the first one with a later deadline, or at the end. -/
def insertTimer (tm : Timer) : List Timer → List Timer
  | [] => [tm]
  | item :: timers => if tm.deadline < item.deadline then tm :: item :: timers else item :: insertTimer tm timers

def timerStart (s : Timers) (ts : Nat) (tm : Timer) : Timers × Int :=
  if !tm.callback then (s, -EINVAL)
  else
    let tm := { tm with deadline := (ts + tm.period) % 2 ^ 64 }
    let next :=
      if tm.deadline < s.nextDeadline then tm.deadline
      else if s.nextDeadline = 0 then tm.deadline
      else s.nextDeadline
    (⟨insertTimer tm s.timers, next⟩, 0)

/-- `timer_cancel`. A timer that is not in the list is not removed. -/
def timerCancel (s : Timers) (addr : Nat) : Timers :=
  let timers := s.timers.eraseP (·.addr = addr)
  ⟨timers, headDeadline timers⟩

end Timers
end Novino.Time
