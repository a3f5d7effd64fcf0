import Mathlib.Tactic.Common

/-! The worker of a USB hub (`usb_core_hub_worker` and `usb_core_hub_notify` in `kernel/usb/usb-core.c`). The sections
    under `wrk.lock` are steps, and so are the sections of `thread_wait` and `thread_signal` and each turn of the loop
    over the ports. The hub is not detached. -/

namespace Novino.Usb

inductive Place
  | top
  /-- In the loop over the ports, with the status that it has read and the next port. -/
  | ports (status : BitVec 32) (i : Nat)
  | waiting
  | asleep
deriving DecidableEq, Repr

/-- A hub: the bits of the ports that were notified, and where its worker is. -/
structure Hub where
  numberOfPorts : Nat
  status : BitVec 32 := 0
  /-- `sig.recv` of the worker's thread. -/
  recv : Bool := false
  place : Place := .top
deriving DecidableEq, Repr

/-- A notification of a port, the signal behind it, and a step of the worker. -/
inductive HubOp
  | notify (port : Nat)
  | signal
  | worker
deriving DecidableEq, Repr

/-- `1 << i`, as the processor shifts. -/
def bit (i : Nat) : BitVec 32 := 1#32 <<< (i % 32)

namespace Hub

variable (h : Hub)

def work : Hub :=
  match h.place with
  | .top => if h.status = 0 then { h with place := .waiting } else { h with place := .ports h.status 1 }
  | .ports status i =>
    if i ≤ h.numberOfPorts then { h with place := .ports status (i + 1) }
    else { h with status := h.status &&& ~~~status, place := .top }
  | .waiting => if h.recv then { h with recv := false, place := .top } else { h with place := .asleep }
  | .asleep => h

def starts : Option Nat :=
  match h.place with
  | .ports status i => if i ≤ h.numberOfPorts ∧ status &&& bit i ≠ 0 then some i else none
  | _ => none

def signal : Hub := if h.place = .asleep then { h with recv := false, place := .top } else { h with recv := true }

def step : HubOp → Hub
  | .notify port => { h with status := h.status ||| bit port }
  | .signal => h.signal
  | .worker => h.work

def Started (h : Hub) (op : HubOp) (port : Nat) : Prop := op = .worker ∧ h.starts = some port

end Hub
end Novino.Usb
