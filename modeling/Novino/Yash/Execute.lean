import Mathlib.Tactic.Common

/-! Running a command list in the shell (`apps/yash/yash.c`). -/

namespace Novino.Yash

/-- The separators in the order of `validate_special`: `&`, `&&`, `|`, `||` and `;`. -/
inductive Sep
  | background | andThen | pipe | orElse | seq
  deriving DecidableEq, Repr

inductive Mode
  | write | append
  deriving DecidableEq, Repr

/-- `args_t`, with the values of `reset_args`. A name of an output file comes with its mode. -/
structure Args where
  sep : Sep := .seq
  argv : List (List Char) := []
  ofn : Option (List Char × Mode) := none
  ifn : Option (List Char) := none
  pid : Nat := 0
  wait : Bool := true
  ofd : Nat := 1
  ifd : Nat := 0
  deriving DecidableEq, Repr

/-- What the system answers for the `i`-th command: which files open, the status of a builtin, and the process and its
status when a program is started. -/
structure Kernel where
  opensOut : Nat → Bool := fun _ => true
  opensIn : Nat → Bool := fun _ => true
  pipes : Nat → Bool := fun _ => true
  /-- The number of the next new descriptor, `process->fd.next`, when `execute` is called. -/
  next : Nat
  builtin : Nat → Int
  spawn : Nat → Option (Nat × Int)

/-- What a call of `execute` has done: the commands that it ran and waited for, the processes, the number of the next
descriptor, and the descriptors that it closed. -/
structure World where
  runs : List (Nat × Bool) := []
  started : List Nat := []
  waited : List Nat := []
  next : Nat := 0
  closed : List Nat := []
  deriving DecidableEq, Repr

namespace World

variable (w : World)

/-- A descriptor is made: numbers are never given again. -/
def enter : World := { w with next := w.next + 1 }

def close (fd : Nat) : World := { w with closed := fd :: w.closed }

def wait (pid : Nat) : World := { w with waited := w.waited ++ [pid] }

end World

/-- A command returns a status, or leaves the shell. -/
inductive Outcome
  | status (code : Int)
  | exit
  deriving DecidableEq, Repr

variable (k : Kernel) (i : Nat) (w : World)

def runBuiltin (p : Args) : Option Outcome :=
  match p.argv.headD [] with
  | ['e', 'c', 'h', 'o'] | ['e', 'x', 'p', 'o', 'r', 't'] | ['u', 'n', 's', 'e', 't'] | ['c', 'l', 'e', 'a', 'r']
  | ['c', 'd'] | ['h', 'i', 's', 't', 'o', 'r', 'y'] => some (.status (k.builtin i))
  | ['t', 'r', 'u', 'e'] => some (.status 0)
  | ['f', 'a', 'l', 's', 'e'] => some (.status 1)
  | ['e', 'x', 'i', 't'] => some .exit
  | _ => none

/-- `run_command`: a builtin, or a program that is waited for when `wait` is set. The exit code of a program that is not
    waited for is still zero. -/
def runCommand (p : Args) : World × Args × Outcome :=
  let w := { w with runs := w.runs ++ [(i, p.wait)] }
  match runBuiltin k i p with
  | some o => (w, p, o)
  | none =>
    match k.spawn i with
    | none => (w, p, .status 127)
    | some (pid, status) =>
      let w := { w with started := w.started ++ [pid] }
      if p.wait then (w.wait pid, { p with pid := pid }, .status status) else (w, { p with pid := pid }, .status 0)

inductive Flow
  | next | stop | exit
  deriving DecidableEq, Repr

def Outcome.flow (stops : Int → Bool) : Outcome → Flow
  | exit => .exit
  | status code => if stops code then .stop else .next

def openInput (c : Args) : World × Args × Bool :=
  if c.ifn.isSome then
    if k.opensIn i then (w.enter, { c with ifd := w.next }, true) else (w, c, false)
  else (w, c, true)

def openFiles (c : Args) : World × Args × Bool :=
  if c.ofn.isSome then
    if k.opensOut i then openInput k i w.enter { c with ofd := w.next } else (w, c, false)
  else openInput k i w c

def Sep.stops : Sep → Int → Bool
  | andThen, code => code != 0
  | orElse, code => code == 0
  | _, _ => false

/-- The command is run as its separator says. The descriptor is the one that the next command reads from. -/
def dispatch (c : Args) : World × Args × Option Nat × Flow :=
  match c.sep with
  | .background => (w, c, none, .next)
  | .pipe =>
    if k.pipes i then
      let rd := w.next
      let (w, c, o) := runCommand k i w.enter.enter { c with wait := false, ofd := rd + 1 }
      (w, c, some rd, o.flow Sep.pipe.stops)
    else (w, c, none, .stop)
  | sep =>
    let (w, c, o) := runCommand k i w c
    (w, c, none, o.flow sep.stops)

def closeFiles (c : Args) : World :=
  let w := if c.ofd ≠ 1 then w.close c.ofd else w
  if c.ifd ≠ 0 then w.close c.ifd else w

/-- The loop of `execute`, with the descriptor that the command before has left for the first one. The last component
    says whether the shell goes on. -/
def loop : Nat → Option Nat → World → List Args → World × List Args × Bool
  | _, _, w, [] => (w, [], true)
  | i, rd, w, c :: rest =>
    match openFiles k i w { c with ifd := rd.getD c.ifd } with
    | (w, c, false) => (w, c :: rest, true)
    | (w, c, true) =>
      match dispatch k i w c with
      | (w, c, _, .stop) => (w, c :: rest, true)
      | (w, c, _, .exit) => (w, c :: rest, false)
      | (w, c, rd, .next) =>
        let (w', rest', b) := loop (i + 1) rd (closeFiles w c) rest
        (w', { c with ofd := 1, ifd := 0 } :: rest', b)

/-- The last loop: what is open is closed, and the commands without `wait` are waited for. -/
def finish : World → List Args → World
  | w, [] => w
  | w, c :: rest =>
    let w := closeFiles w c
    finish (if c.wait then w else w.wait c.pid) rest

def execute (cmds : List Args) : World × Bool :=
  match loop k 0 none { next := k.next } cmds with
  | (w, cmds, true) => (finish w cmds, true)
  | (w, _, false) => (w, false)

def Args.Parsed (c : Args) : Prop := c.pid = 0 ∧ c.wait = true ∧ c.ofd = 1 ∧ c.ifd = 0

/-- The lists that `parse_cmdline` accepts: what its last loop asks for, of commands as it makes them. -/
def Accepted (cmds : List Args) : Prop :=
  (∀ c ∈ cmds, c.Parsed) ∧ (∀ c ∈ cmds.getLast?, c.sep = .background ∨ c.sep = .seq) ∧
    (∀ c ∈ cmds, c.sep = .pipe → c.ofn = none) ∧ cmds.IsChain fun c d => c.sep = .pipe → d.ifn = none

end Novino.Yash
