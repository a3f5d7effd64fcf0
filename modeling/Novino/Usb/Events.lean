import Novino.Usb.Xhci

/-! The event ring (`xhci_handler` in `kernel/usb/xhci.c`, `xhci_poll_event` in `kernel/usb/xhci-command.c`), with a
    controller that posts events and a thread that polls for the completion of its commands. The handler is one step; a
    poll reads `latest` in one step and clears it in another. -/

namespace Novino.Usb

def XHCI_MAX_EVENTS : Nat := 128

inductive Call
  | endpoint (slot dci : Nat)
  | notify (port : Nat)
deriving DecidableEq, Repr

inductive Poll
  | idle
  /-- In the loop of `xhci_poll_event` for a type of events. -/
  | looking (type : BitVec 32)
  /-- It has read `latest` and found an event of the type there. -/
  | found (i : Nat)
deriving DecidableEq, Repr

/-- The event ring and what is around it. `calls`, `posted`, `handled`, `seen` and `submitted` are not in the source:
the calls of the handler, the events that were posted, that the handler took and that polls returned, and the number of
commands. -/
structure Events where
  trb : Nat → Trb
  index : Nat := 0
  latest : Option Nat := none
  eint : Bool := false
  /-- Whether `xhci->hub` is set. -/
  hub : Bool
  /-- Whether an endpoint of a slot has a handler. -/
  endpoint : Nat → Nat → Bool
  poll : Poll := .idle
  calls : List Call := []
  posted : List Trb := []
  handled : List Trb := []
  seen : List Trb := []
  submitted : Nat := 0

/-- What the controller, the handler and a thread that polls for its event do. -/
inductive EventOp
  | post (events : List Trb)
  | interrupt
  | submit
  | look
  /-- The poll has found its event: it clears `latest` and returns. -/
  | clear
  | expire
deriving DecidableEq, Repr

namespace Events

variable (s : Events)

def dispatch (trb : Trb) : List Call :=
  if trb.type = TRB_TYPE_TRANSFER then
    let dci := (trb.flags >>> 16 &&& 0x1F).toNat
    let slot := (trb.flags >>> 24).toNat
    if 1 < dci ∧ s.endpoint slot dci then [.endpoint slot dci] else []
  else if trb.type = TRB_TYPE_PORT_STATUS_CHANGE then
    if s.hub then [.notify (trb.address >>> 24 &&& 0xFF).toNat] else []
  else []

def handler : Events :=
  if s.eint then
    { s with
      eint := false
      latest := some s.index
      index := if s.index + 1 = XHCI_MAX_EVENTS then 0 else s.index + 1
      calls := s.calls ++ s.dispatch (s.trb s.index)
      handled := s.handled ++ [s.trb s.index] }
  else s

def write (trb : Nat → Trb) (n : Nat) : List Trb → Nat → Trb
  | [] => trb
  | event :: events => write (Function.update trb (n % XHCI_MAX_EVENTS) event) (n + 1) events

/-- A turn of the loop of `xhci_poll_event`, up to the test of the type. -/
def look : Events :=
  match s.poll, s.latest with
  | .looking type, some i => if (s.trb i).type = type then { s with poll := .found i } else s
  | _, _ => s

def clear : Events :=
  match s.poll with
  | .found i => { s with latest := none, poll := .idle, seen := s.seen ++ [s.trb i] }
  | _ => s

def step : EventOp → Events
  | .post events =>
    { s with trb := write s.trb s.posted.length events, eint := true, posted := s.posted ++ events }
  | .interrupt => s.handler
  | .submit => { s with poll := .looking TRB_TYPE_COMMAND_COMPLETION, submitted := s.submitted + 1 }
  | .look => s.look
  | .clear => s.clear
  | .expire => { s with poll := .idle }

end Events

def completions (events : List Trb) : List Trb := events.filter (·.type = TRB_TYPE_COMMAND_COMPLETION)

/-- Events are posted where the ring has room, a command is completed at most once and not before it is submitted, and
the handler runs for an interrupt. -/
def Events.Allowed (s : Events) : EventOp → Prop
  | .post events => events ≠ [] ∧ s.posted.length + events.length < s.handled.length + XHCI_MAX_EVENTS ∧
    (completions (s.posted ++ events)).length ≤ s.submitted
  | .interrupt => s.eint = true
  | .submit => s.poll = .idle
  | .look => s.poll = .looking TRB_TYPE_COMMAND_COMPLETION
  | .clear => ∃ i, s.poll = .found i
  | .expire => s.poll = .looking TRB_TYPE_COMMAND_COMPLETION

end Novino.Usb
