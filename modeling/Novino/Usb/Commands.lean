import Novino.Usb.Xhci

/-! The command ring (`xhci_command_submit` in `kernel/usb/xhci-command.c`, `xhci_create_command_ring` in
    `kernel/usb/xhci.c`), a controller that reads it, and the entries of a transfer (`xhci_transfer_normal`). The
    driver takes a step for each store of
    `xhci_command_submit`, and the controller may take steps in between. -/

namespace Novino.Usb

def XHCI_MAX_COMMANDS : Nat := 128

/-- Where the driver is in `xhci_command_submit`, with the entry that it submits. -/
inductive Stage
  | idle
  | address (entry : Trb)
  | status (entry : Trb)
  | flags (entry : Trb)
  /-- At the end of the ring: clear the flags of the link. -/
  | unlink (entry : Trb)
  /-- Give the link the cycle. -/
  | relink (entry : Trb)
  /-- Chain the link as the last entry is, and start again with the other cycle. -/
  | chain (entry : Trb)
deriving DecidableEq, Repr

/-- The ring, the driver and the controller. `submitted`, `read`, `written` and `passed` are not in the source: the
entries that were submitted and those that were read, and the number of places, links included, that the driver has
begun to write and that the controller has left behind. -/
structure Commands where
  trb : Nat → Trb
  phys : BitVec 64
  index : Nat
  ntrb : Nat
  cycle : BitVec 32
  stage : Stage := .idle
  dequeue : Nat := 0
  ccs : Bool := true
  submitted : List Trb := []
  read : List Trb := []
  written : Nat := 0
  passed : Nat := 0

inductive CommandOp
  | submit (addr : BitVec 64) (status flags : BitVec 32)
  | store
  | fetch
deriving DecidableEq, Repr

def Trb.cycle (trb : Trb) : Bool := trb.flags &&& TRB_CYCLE ≠ 0

def Trb.command (trb : Trb) : Trb := { trb with flags := trb.flags &&& ~~~TRB_CYCLE }

namespace Commands

def create (phys : BitVec 64) : Commands where
  trb := Function.update (fun _ => {}) XHCI_MAX_COMMANDS
    { address := phys, status := 0, flags := TRB_TYPE_LINK <<< 10 ||| TRB_ENT }
  phys
  index := 0
  ntrb := XHCI_MAX_COMMANDS
  cycle := 1

variable (s : Commands)

def put (i : Nat) (f : Trb → Trb) : Commands := { s with trb := Function.update s.trb i (f (s.trb i)) }

def store : Commands :=
  match s.stage with
  | .idle => s
  | .address entry => { s.put s.index fun trb => { trb with address := entry.address } with stage := .status entry }
  | .status entry => { s.put s.index fun trb => { trb with status := entry.status } with stage := .flags entry }
  | .flags entry =>
    let s := { s.put s.index fun trb => { trb with flags := entry.flags } with index := s.index + 1 }
    if s.index = s.ntrb then { s with stage := .unlink entry, written := s.written + 1 } else { s with stage := .idle }
  | .unlink entry =>
    { s.put s.ntrb fun trb => { trb with flags := trb.flags &&& ~~~(TRB_CHAIN ||| TRB_CYCLE) } with
      stage := .relink entry }
  | .relink entry => { s.put s.ntrb fun trb => { trb with flags := trb.flags ||| s.cycle } with stage := .chain entry }
  | .chain entry =>
    let s := if entry.flags &&& TRB_CHAIN ≠ 0 then
      s.put s.ntrb fun trb => { trb with flags := trb.flags ||| TRB_CHAIN } else s
    { s with cycle := s.cycle ^^^ 1, index := 0, stage := .idle }

/-- The controller reads an entry whose cycle bit is its own cycle. At the end of the ring it follows the link. -/
def fetch : Commands :=
  let trb := s.trb s.dequeue
  if trb.cycle ≠ s.ccs then s
  else if s.dequeue = s.ntrb then
    { s with
      dequeue := ((trb.address - s.phys) / 16).toNat
      ccs := if trb.flags &&& TRB_ENT ≠ 0 then !s.ccs else s.ccs
      passed := s.passed + 1 }
  else { s with dequeue := s.dequeue + 1, read := s.read ++ [trb], passed := s.passed + 1 }

def step : CommandOp → Commands
  | .submit addr status flags =>
    match s.stage with
    | .idle =>
      { s with
        stage := .address { address := addr, status, flags := flags &&& ~~~TRB_CYCLE ||| s.cycle }
        submitted := s.submitted ++ [{ address := addr, status, flags }]
        written := s.written + 1 }
    | _ => s
  | .store => s.store
  | .fetch => s.fetch

/-- A call of `xhci_command_submit` that nothing comes in between: there are at most six stores. -/
def submit (entry : Trb) : Commands := Nat.repeat store 6 (s.step (.submit entry.address entry.status entry.flags))

/-- The controller is at most a full ring behind: no place is written whose last content it has not passed. -/
def Near : Prop := s.written ≤ s.passed + (s.ntrb + 1)

instance : Decidable s.Near := inferInstanceAs (Decidable (_ ≤ _))

end Commands

/-- The normal entry for the bytes from `start` up to `curr`, with `mps` bytes to a packet. -/
def normalEntry (mps stop start curr : Nat) : Trb where
  address := BitVec.ofNat 64 start
  status := BitVec.ofNat 32 (min ((stop - curr) / mps) 31 <<< 17 ||| (curr - start))
  flags := TRB_TYPE_NORMAL <<< 10 ||| TRB_CHAIN ||| if curr < stop then TRB_ENT else 0

/-- The loop of `xhci_transfer_normal`, which looks at each byte. A division by 0 has no result. -/
def normalLoop (mps stop start curr : Nat) : Option (List Trb) :=
  if curr < stop then
    if (curr + 1) % 0x10000 = 0 ∨ curr + 1 = stop then
      if mps = 0 then none
      else (normalLoop mps stop (curr + 1) (curr + 1)).map (normalEntry mps stop start (curr + 1) :: ·)
    else normalLoop mps stop start (curr + 1)
  else some []
termination_by stop - curr

def eventEntry : Trb where
  address := 0xdeadbeef
  status := 0
  flags := TRB_TYPE_EVENT_DATA <<< 10 ||| TRB_IOC

/-- `xhci_transfer_normal` on the ring of an endpoint. -/
def xhciTransferNormal (ring : Commands) (mps : BitVec 16) (phys : BitVec 64) (size : BitVec 32) : Option Commands :=
  (normalLoop mps.toNat (phys + size.signExtend 64).toNat phys.toNat phys.toNat).map fun entries =>
    (entries ++ [eventEntry]).foldl Commands.submit ring

end Novino.Usb
