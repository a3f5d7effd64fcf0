import Novino.Lib.Ring
import Novino.Sched.Wq

/-! Pipes (`kernel/vfs/pipes.c`) and their two ends (`kernel/vfs/pipefs.c`). The mutex of an end lets one call at a time
    work on the pipe, so that the state has a place for one reader and one writer; a call that waits for the mutex is
    not shown. Each access to the shared indices, the data and the queues is a step of its own. A length is a
    non-negative `int`. -/

namespace Novino.Vfs.Pipes

open Sched (EINTR)

def PIPE_BUFFER_SIZE : Nat := 4 * 1024 + 1

/-- Where a call of `pipe_write` is; `b` is the byte of this round of the loop, and `rest` is what is left after it. -/
inductive WriterAt
  /-- At the head of the loop, with these bytes to go. -/
  | loop (bytes : List UInt8)
  /-- The buffer is full: before `wq_wake(&rd->queue)`. -/
  | full (b : UInt8) (rest : List UInt8)
  /-- Before `wq_wait(&wr->queue)`. -/
  | wait (b : UInt8) (rest : List UInt8)
  | asleep (b : UInt8) (rest : List UInt8)
  /-- On a run queue again, interrupted or not. -/
  | woken (b : UInt8) (rest : List UInt8) (intr : Bool)
  /-- Before the byte is stored; `tested` says that this round found room and did not sleep. -/
  | store (b : UInt8) (rest : List UInt8) (tested : Bool)
  /-- Before `head = next`. -/
  | publish (b : UInt8) (rest : List UInt8) (tested : Bool)
  /-- Before the last `wq_wake(&rd->queue)`. -/
  | wake
  /-- Before `release_mutex`. -/
  | release
deriving DecidableEq, Repr

/-- Where a call of `pipe_read` is; `n` is what is left of `maxlen`. -/
inductive ReaderAt
  /-- Before the first test for an empty buffer. -/
  | first (n : Nat)
  /-- Before `wq_wait(&rd->queue)`. -/
  | wait (n : Nat)
  | asleep (n : Nat)
  | woken (n : Nat) (intr : Bool)
  | loop (n : Nat)
  /-- Before the byte is read. -/
  | fetch (n : Nat)
  /-- Before `tail = next`, with the byte read. -/
  | advance (n : Nat) (b : UInt8)
  /-- Before the last `wq_wake(&wr->queue)`. -/
  | wake
  /-- Before `release_mutex`. -/
  | release
deriving DecidableEq, Repr

/-- A call under way. `since` is not in the source: how many bytes had gone into (for a reader, out of) the pipe when
    the call began. -/
structure Call (At : Type) where
  place : At
  length : Nat
  since : Nat
deriving DecidableEq, Repr

/-- A pipe. `accepted`, `delivered` and `results` are not in the source: the bytes put in and taken out, in order, and
the results of the calls that ended, each with the number of bytes it moved. -/
structure Pipe where
  head : Nat
  tail : Nat
  data : Nat → UInt8
  /-- O_NONBLOCK of the read end and of the write end. -/
  rnonblock : Bool
  wnonblock : Bool
  reader : Option (Call ReaderAt)
  writer : Option (Call WriterAt)
  /-- `fs->rd` and `fs->wr` are not 0. -/
  rd : Bool
  wr : Bool
  /-- The close of the write end is on its way to `pipe_write(fs->pipe, 0, 0)`. -/
  closing : Bool
  /-- `pipe_delete` has freed the pipe. -/
  freed : Bool
  accepted : List UInt8
  delivered : List UInt8
  results : List (Int × Nat)

namespace Pipe

def create (rnonblock wnonblock : Bool) : Pipe where
  head := 0
  tail := 0
  data := fun _ => 0
  rnonblock := rnonblock
  wnonblock := wnonblock
  reader := none
  writer := none
  rd := true
  wr := true
  closing := false
  freed := false
  accepted := []
  delivered := []
  results := []

variable (s : Pipe) (w : Call WriterAt) (r : Call ReaderAt)

/-- The buffer is full: `next == pipe->tail`. -/
def Full : Prop := Ring.next PIPE_BUFFER_SIZE s.head = s.tail

/-- The buffer is empty: `pipe->head == pipe->tail`. -/
def Empty : Prop := s.head = s.tail

instance : Decidable s.Full := inferInstanceAs (Decidable (_ = _))

instance : Decidable s.Empty := inferInstanceAs (Decidable (_ = _))

/-- A sleeping reader leaves its queue and gets on a run queue, interrupted or not. -/
def rouseReader (intr : Bool) : Pipe :=
  match s.reader with
  | some ⟨.asleep n, length, since⟩ => { s with reader := some ⟨.woken n intr, length, since⟩ }
  | _ => s

def rouseWriter (intr : Bool) : Pipe :=
  match s.writer with
  | some ⟨.asleep b rest, length, since⟩ => { s with writer := some ⟨.woken b rest intr, length, since⟩ }
  | _ => s

def wakeReader : Pipe := s.rouseReader false

def wakeWriter : Pipe := s.rouseWriter false

def writerTo (place : WriterAt) : Pipe := { s with writer := some { w with place := place } }

def readerTo (place : ReaderAt) : Pipe := { s with reader := some { r with place := place } }

def writerReturns (result : Int) : Pipe :=
  { s with writer := none, results := s.results ++ [(result, s.accepted.length - w.since)] }

def readerReturns (result : Int) : Pipe :=
  { s with reader := none, results := s.results ++ [(result, s.delivered.length - r.since)] }

/-- One step of `pipe_write`. The index `next` is the one behind the head, that no other call changes. -/
def writerStep : Pipe :=
  match w.place with
  | .loop [] => s.writerTo w .wake
  | .loop (b :: rest) =>
    if s.Full then s.writerTo w (if s.wnonblock then .wake else .full b rest) else s.writerTo w (.store b rest true)
  | .full b rest => s.wakeReader.writerTo w (.wait b rest)
  | .wait b rest => s.writerTo w (.asleep b rest)
  | .asleep _ _ => s
  | .woken b rest intr => if intr then s.writerReturns w (-EINTR) else s.writerTo w (.store b rest false)
  | .store b rest tested => { s.writerTo w (.publish b rest tested) with data := Function.update s.data s.head b }
  | .publish b rest _ =>
    { s.writerTo { w with length := w.length + 1 } (.loop rest) with
      head := Ring.next PIPE_BUFFER_SIZE s.head
      accepted := s.accepted ++ [b] }
  | .wake => s.wakeReader.writerTo w .release
  | .release => s.writerReturns w w.length

def readerStep : Pipe :=
  match r.place with
  | .first n =>
    if s.Empty then if s.rnonblock then s.readerReturns r 0 else s.readerTo r (.wait n) else s.readerTo r (.loop n)
  | .wait n => s.readerTo r (.asleep n)
  | .asleep _ => s
  | .woken n intr => if intr then s.readerReturns r (-EINTR) else s.readerTo r (.loop n)
  | .loop 0 => s.readerTo r .wake
  | .loop (n + 1) => if s.Empty then s.readerTo r .wake else s.readerTo r (.fetch n)
  | .fetch n => s.readerTo r (.advance n (s.data s.tail))
  | .advance n b =>
    { s.readerTo { r with length := r.length + 1 } (.loop n) with
      tail := Ring.next PIPE_BUFFER_SIZE s.tail
      delivered := s.delivered ++ [b] }
  | .wake => s.wakeWriter.readerTo r .release
  | .release => s.readerReturns r r.length

/-- `wq_interrupt` for the writer, which does something only while it sleeps. -/
def interruptWriter : Pipe := s.rouseWriter true

def interruptReader : Pipe := s.rouseReader true

def WriterAsleep : Prop := ∃ w ∈ s.writer, ∃ b rest, w.place = .asleep b rest

def ReaderAsleep : Prop := ∃ r ∈ s.reader, ∃ n, r.place = .asleep n

instance : Decidable s.WriterAsleep :=
  decidable_of_iff (s.writer.any (fun w => w.place matches .asleep ..)) (by
    rw [Option.any_eq_true]
    refine exists_congr fun w => and_congr_right fun _ => ?_
    cases w.place <;> simp)

instance : Decidable s.ReaderAsleep :=
  decidable_of_iff (s.reader.any (fun r => r.place matches .asleep ..)) (by
    rw [Option.any_eq_true]
    refine exists_congr fun r => and_congr_right fun _ => ?_
    cases r.place <;> simp)

end Pipe

inductive PipeOp
  /-- A call of `pipe_write` gets the mutex. -/
  | write (bytes : List UInt8)
  /-- A call of `pipe_read` gets the mutex. -/
  | read (maxlen : Nat)
  /-- A call of either end returns before it has the mutex: `acquire_mutex` fails, or the other end is closed. -/
  | refused (e : Int)
  | writer
  | reader
  | interruptWriter
  | interruptReader
  /-- `pipefs_close` sets `fs->rd = 0`. -/
  | closeRead
  /-- `pipefs_close` sets `fs->wr = 0` and looks at `fs->rd`. -/
  | closeWrite
  /-- The `pipe_write` of that close gets the mutex. -/
  | flush
  /-- `acquire_mutex` fails in it. -/
  | flushRefused
  /-- `pipe_delete` after both ends are closed. -/
  | delete
deriving DecidableEq, Repr

namespace Pipe

variable (s : Pipe)

def beginWrite (bytes : List UInt8) : Pipe := { s with writer := some ⟨.loop bytes, 0, s.accepted.length⟩ }

def beginRead (maxlen : Nat) : Pipe := { s with reader := some ⟨.first maxlen, 0, s.delivered.length⟩ }

def step : PipeOp → Pipe
  | .write bytes => s.beginWrite bytes
  | .read maxlen => s.beginRead maxlen
  | .refused e => { s with results := s.results ++ [(e, 0)] }
  | .writer => s.writer.elim s s.writerStep
  | .reader => s.reader.elim s s.readerStep
  | .interruptWriter => s.interruptWriter
  | .interruptReader => s.interruptReader
  | .closeRead => { s with rd := false }
  | .closeWrite => { s with wr := false, closing := s.rd }
  | .flush => { s.beginWrite [] with closing := false }
  | .flushRefused => { s with closing := false }
  | .delete => if s.ReaderAsleep ∨ s.WriterAsleep then s else { s with freed := true }

def Enabled : PipeOp → Prop
  | .write _ => s.freed = false ∧ s.writer = none
  | .read _ => s.freed = false ∧ s.reader = none
  | .refused e => s.freed = false ∧ e ≤ 0
  | .writer => s.freed = false ∧ s.writer ≠ none
  | .reader => s.freed = false ∧ s.reader ≠ none
  | .interruptWriter | .interruptReader => s.freed = false
  | .closeRead => s.rd = true
  | .closeWrite => s.wr = true
  | .flush => s.freed = false ∧ s.writer = none ∧ s.closing = true
  | .flushRefused => s.closing = true
  | .delete => s.rd = false ∧ s.wr = false ∧ s.freed = false

instance : (op : PipeOp) → Decidable (s.Enabled op)
  | .write _ => inferInstanceAs (Decidable (_ ∧ s.writer = none))
  | .read _ => inferInstanceAs (Decidable (_ ∧ s.reader = none))
  | .refused e => inferInstanceAs (Decidable (_ ∧ e ≤ 0))
  | .writer => inferInstanceAs (Decidable (_ ∧ s.writer ≠ none))
  | .reader => inferInstanceAs (Decidable (_ ∧ s.reader ≠ none))
  | .interruptWriter | .interruptReader => inferInstanceAs (Decidable (_ = false))
  | .closeRead | .closeWrite | .flushRefused => inferInstanceAs (Decidable (_ = true))
  | .flush => inferInstanceAs (Decidable (_ ∧ s.writer = none ∧ _))
  | .delete => inferInstanceAs (Decidable (_ ∧ _ ∧ _))

end Pipe
end Novino.Vfs.Pipes
