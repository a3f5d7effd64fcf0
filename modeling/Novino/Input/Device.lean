import Novino.Vfs.Pipes

/-! Keyboard and mouse devices (`kernel/input/kbd.c`, `kernel/input/mouse.c`) with the pipes of their readers, where
    `pipe_write` and `pipe_read` are single steps. The write ends do not block. A read of an empty pipe takes nothing:
    it
    returns 0, or waits, or is interrupted. -/

namespace Novino.Input

open Vfs.Pipes (PIPE_BUFFER_SIZE)

structure Event where
  ts : BitVec 64
  type : BitVec 16
  code : BitVec 16
  value : BitVec 32
deriving DecidableEq, Repr

def le {w : Nat} (x : BitVec w) (n : Nat) : List (BitVec 8) := (List.range n).map fun i => x.extractLsb' (8 * i) 8

def Event.bytes (e : Event) : List (BitVec 8) := le e.ts 8 ++ le e.type 2 ++ le e.code 2 ++ le e.value 4

structure Pipe where
  head : Nat := 0
  tail : Nat := 0
  data : Nat → BitVec 8 := fun _ => 0

def Pipe.push (p : Pipe) (b : BitVec 8) : Pipe :=
  { p with head := Ring.next PIPE_BUFFER_SIZE p.head, data := Function.update p.data p.head b }

def Pipe.write (p : Pipe) : List (BitVec 8) → Pipe
  | [] => p
  | b :: bs => if Ring.next PIPE_BUFFER_SIZE p.head = p.tail then p else (p.push b).write bs

def Pipe.read (p : Pipe) : Nat → Pipe × List (BitVec 8)
  | 0 => (p, [])
  | n + 1 =>
    if p.head = p.tail then (p, [])
    else
      let r := Pipe.read { p with tail := Ring.next PIPE_BUFFER_SIZE p.tail } n
      (r.1, p.data p.tail :: r.2)

/-- An open file. `events` and `got` are not in the source: the events since it was opened, and the bytes that were
    read. -/
structure Reader where
  pipe : Pipe := {}
  events : List Event := []
  got : List (BitVec 8) := []

/-- The static variables of a device; the mouse has only the pipes. -/
structure Device where
  pipes : List Reader := []
  repeatCount : BitVec 32 := 0
  repeatCode : BitVec 32 := 0

def EV_KEY : BitVec 16 := 1

namespace Device

variable (d : Device) (ts : BitVec 64)

def put (e : Event) : Device :=
  { d with pipes := d.pipes.map fun r => { r with pipe := r.pipe.write e.bytes, events := r.events ++ [e] } }

def kbdWrite (code value : BitVec 32) : Device :=
  let d := if value = 0 then { d with repeatCount := 12, repeatCode := code }
    else if value = 1 then { d with repeatCount := 0, repeatCode := 0 } else d
  d.put ⟨ts, EV_KEY, code.setWidth 16, value⟩

def kbdAutoRepeat : Device :=
  if d.repeatCode = 0 then d
  else
    let d := { d with repeatCount := d.repeatCount - 1 }
    if d.repeatCount = 0 then { d.kbdWrite ts d.repeatCode 2 with repeatCount := 1 } else d

def mouseWrite (type code value : BitVec 32) : Device := d.put ⟨ts, type.setWidth 16, code.setWidth 16, value⟩

end Device

/-- An event of a device, or a call by a reader. -/
inductive Op
  | kbd (ts : BitVec 64) (code value : BitVec 32)
  | autoRepeat (ts : BitVec 64)
  | mouse (ts : BitVec 64) (type code value : BitVec 32)
  | opens
  | closes (i : Nat)
  /-- A read by the `i`-th reader. The size is passed on as an `int`, and `while(maxlen--)` counts it down to 0. -/
  | read (i : Nat) (size : BitVec 64)
deriving DecidableEq, Repr

def Device.step (d : Device) : Op → Device
  | .kbd ts code value => d.kbdWrite ts code value
  | .autoRepeat ts => d.kbdAutoRepeat ts
  | .mouse ts type code value => d.mouseWrite ts type code value
  | .opens => { d with pipes := {} :: d.pipes }
  | .closes i => { d with pipes := d.pipes.eraseIdx i }
  | .read i size =>
    { d with pipes := d.pipes.modify i fun r =>
      let x := r.pipe.read (size.toNat % 2 ^ 32)
      { r with pipe := x.1, got := r.got ++ x.2 } }

end Novino.Input
