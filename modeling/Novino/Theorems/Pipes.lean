import Novino.Lib.Steps
import Novino.Vfs.Pipes

/-! Pipes: the bytes that go in and come out, and the calls that sleep. -/

namespace Novino.Vfs.Pipes.Pipe

variable {s : Pipe} {w : Call WriterAt} {r : Call ReaderAt} {place : WriterAt} {n : Nat} {b : UInt8}
  {rest : List UInt8} {t : Pipe} (intr : Bool)

def ring (s : Pipe) : List UInt8 := Ring.items PIPE_BUFFER_SIZE s.data s.head s.tail

/-- What readers got followed by what is in the buffer is what writers put in, and the result of a call is the number of
bytes it moved. -/
structure Faithful (s : Pipe) : Prop where
  books : s.accepted = s.delivered ++ s.ring
  results : ∀ c ∈ s.results, 0 ≤ c.1 ∨ c.2 ≠ 0 → c.1 = c.2

/-- A writer that slept finds room when it moves the head, and one that is interrupted has not moved bytes yet. -/
def Heeds (s : Pipe) (length : Nat) : WriterAt → Prop
  | .publish _ _ false => ¬ s.Full
  | .woken _ _ true => length = 0
  | _ => True

def Careful (s : Pipe) : PipeOp → Prop
  | .writer => ∀ w ∈ s.writer, s.Heeds w.length w.place
  | _ => True

instance (length : Nat) : (place : WriterAt) → Decidable (s.Heeds length place)
  | .publish _ _ false => inferInstanceAs (Decidable (¬ s.Full))
  | .woken _ _ true => inferInstanceAs (Decidable (length = 0))
  | .loop _ | .full _ _ | .wait _ _ | .asleep _ _ | .woken _ _ false | .store _ _ _ | .publish _ _ true | .wake
  | .release => inferInstanceAs (Decidable True)

instance : (op : PipeOp) → Decidable (s.Careful op)
  | .writer => inferInstanceAs (Decidable (∀ w ∈ s.writer, s.Heeds w.length w.place))
  | .write _ | .read _ | .refused _ | .reader | .interruptWriter | .interruptReader | .closeRead | .closeWrite | .flush
  | .flushRefused | .delete => inferInstanceAs (Decidable True)

def Knows (s : Pipe) : WriterAt → Prop
  | .store _ _ tested => tested = true → ¬ s.Full
  | .publish b _ tested => s.data s.head = b ∧ (tested = true → ¬ s.Full)
  | _ => True

def Sees (s : Pipe) (length : Nat) : ReaderAt → Prop
  | .first _ | .wait _ | .asleep _ | .woken _ _ => length = 0
  | .fetch _ => ¬ s.Empty
  | .advance _ b => ¬ s.Empty ∧ s.data s.tail = b
  | _ => True

structure Inv (s : Pipe) : Prop extends Faithful s where
  head : s.head < PIPE_BUFFER_SIZE
  tail : s.tail < PIPE_BUFFER_SIZE
  writer : ∀ w ∈ s.writer, w.since + w.length = s.accepted.length ∧ s.Knows w.place
  reader : ∀ r ∈ s.reader, r.since + r.length = s.delivered.length ∧ s.Sees r.length r.place

theorem Inv.create (rnonblock wnonblock : Bool) : (create rnonblock wnonblock).Inv where
  books := rfl
  results := fun _ hc => by cases hc
  head := Nat.succ_pos _
  tail := Nat.succ_pos _
  writer := fun _ hw => by cases hw
  reader := fun _ hr => by cases hr

theorem Inv.writerTo (h : s.Inv) (hw : w ∈ s.writer) (hk : s.Knows place) :
    (s.writerTo w place).Inv where
  books := h.books
  results := h.results
  head := h.head
  tail := h.tail
  writer := by
    intro w' hw'
    obtain rfl := Option.some.inj hw'
    refine ⟨(h.writer w hw).1, ?_⟩
    cases place <;> exact hk
  reader := h.reader

theorem Inv.readerTo (h : s.Inv) (hr : r ∈ s.reader) {place : ReaderAt} (hs : s.Sees r.length place) :
    (s.readerTo r place).Inv where
  books := h.books
  results := h.results
  head := h.head
  tail := h.tail
  writer := h.writer
  reader := by
    intro r' hr'
    obtain rfl := Option.some.inj hr'
    refine ⟨(h.reader r hr).1, ?_⟩
    cases place <;> exact hs

theorem rouseReader_cases (s : Pipe) (intr : Bool) : s.rouseReader intr = s ∧ ¬ s.ReaderAsleep ∨
    ∃ r ∈ s.reader, ∃ n, r.place = .asleep n ∧ s.rouseReader intr = s.readerTo r (.woken n intr) := by
  unfold rouseReader
  split
  · next n length since hr => exact .inr ⟨_, hr, n, rfl, rfl⟩
  · next hnot =>
    refine .inl ⟨rfl, ?_⟩
    rintro ⟨⟨_, length, since⟩, hr, n, rfl⟩
    exact hnot n length since hr

theorem rouseWriter_cases (s : Pipe) (intr : Bool) : s.rouseWriter intr = s ∧ ¬ s.WriterAsleep ∨
    ∃ w ∈ s.writer, ∃ b rest, w.place = .asleep b rest ∧ s.rouseWriter intr = s.writerTo w (.woken b rest intr) := by
  unfold rouseWriter
  split
  · next b rest length since hw => exact .inr ⟨_, hw, b, rest, rfl, rfl⟩
  · next hnot =>
    refine .inl ⟨rfl, ?_⟩
    rintro ⟨⟨_, length, since⟩, hw, b, rest, rfl⟩
    exact hnot b rest length since hw

theorem rouseReader_writer : (s.rouseReader intr).writer = s.writer := by
  rcases s.rouseReader_cases intr with ⟨heq, -⟩ | ⟨r, -, n, -, heq⟩ <;> rw [heq]
  rfl

theorem rouseWriter_reader : (s.rouseWriter intr).reader = s.reader := by
  rcases s.rouseWriter_cases intr with ⟨heq, -⟩ | ⟨w, -, b, rest, -, heq⟩ <;> rw [heq]
  rfl

section
variable (h : s.Inv) {b : UInt8} {rest : List UInt8} {tested : Bool}
include h

theorem Inv.rouseReader (intr : Bool) : (s.rouseReader intr).Inv := by
  rcases s.rouseReader_cases intr with ⟨heq, -⟩ | ⟨r, hr, n, hplace, heq⟩ <;> rw [heq]
  · exact h
  · have hsees := (h.reader r hr).2
    rw [hplace] at hsees
    exact h.readerTo hr hsees

theorem Inv.rouseWriter (intr : Bool) : (s.rouseWriter intr).Inv := by
  rcases s.rouseWriter_cases intr with ⟨heq, -⟩ | ⟨w, hw, b, rest, -, heq⟩ <;> rw [heq]
  · exact h
  · exact h.writerTo hw trivial

theorem Inv.store (hw : w ∈ s.writer)
    (hplace : w.place = .store b rest tested) :
    { s.writerTo w (.publish b rest tested) with data := Function.update s.data s.head b }.Inv where
  books := by
    show s.accepted = s.delivered ++ Ring.items _ (Function.update s.data s.head b) s.head s.tail
    rw [Ring.items_store h.head h.tail]
    exact h.books
  results := h.results
  head := h.head
  tail := h.tail
  writer := by
    intro w' hw'
    obtain rfl := Option.some.inj hw'
    have hknows := (h.writer w hw).2
    rw [hplace] at hknows
    exact ⟨(h.writer w hw).1, Function.update_self .., hknows⟩
  reader := by
    intro r hr
    obtain ⟨hcount, hsees⟩ := h.reader r hr
    refine ⟨hcount, ?_⟩
    cases hr' : r.place with
    | advance n c =>
      rw [hr'] at hsees
      exact ⟨hsees.1, (Function.update_of_ne (Ne.symm hsees.1) ..).trans hsees.2⟩
    | _ => rw [hr'] at hsees; exact hsees

theorem Inv.publish (hw : w ∈ s.writer)
    (hplace : w.place = .publish b rest tested) (hroom : ¬ s.Full) :
    { s.writerTo { w with length := w.length + 1 } (.loop rest) with
      head := Ring.next PIPE_BUFFER_SIZE s.head
      accepted := s.accepted ++ [b] }.Inv := by
  obtain ⟨hcount, hknows⟩ := h.writer w hw
  rw [hplace] at hknows
  constructor
  · constructor
    · show s.accepted ++ [b] = s.delivered ++ Ring.items _ s.data _ s.tail
      rw [Ring.items_push h.head h.tail hroom, hknows.1, h.books, List.append_assoc]
      rfl
    · exact h.results
  · exact Ring.next_lt h.head
  · exact h.tail
  · intro w' hw'
    obtain rfl := Option.some.inj hw'
    refine ⟨?_, trivial⟩
    show w.since + (w.length + 1) = (s.accepted ++ [b]).length
    rw [List.length_append, ← hcount, Nat.add_assoc]
    rfl
  · intro r hr
    obtain ⟨hcount, hsees⟩ := h.reader r hr
    refine ⟨hcount, ?_⟩
    cases hr' : r.place with
    | fetch n => exact hroom
    | advance n c =>
      rw [hr'] at hsees
      exact ⟨hroom, hsees.2⟩
    | _ => rw [hr'] at hsees; exact hsees

theorem Inv.advance (hr : r ∈ s.reader) {n : Nat} (hplace : r.place = .advance n b) :
    { s.readerTo { r with length := r.length + 1 } (.loop n) with
      tail := Ring.next PIPE_BUFFER_SIZE s.tail
      delivered := s.delivered ++ [b] }.Inv := by
  obtain ⟨hcount, hsees⟩ := h.reader r hr
  rw [hplace] at hsees
  obtain ⟨hne, hb⟩ := hsees
  have hroom : Ring.next PIPE_BUFFER_SIZE s.head ≠ Ring.next PIPE_BUFFER_SIZE s.tail := by
    have hne' : s.head ≠ s.tail := hne
    have hhead := h.head
    have htail := h.tail
    rw [Ring.next_eq hhead, Ring.next_eq htail]
    split_ifs <;> omega
  constructor
  · constructor
    · show s.accepted = s.delivered ++ [b] ++ Ring.items _ s.data s.head _
      rw [h.books, List.append_assoc, ring, Ring.items_pop h.head h.tail hne, hb]
      rfl
    · exact h.results
  · exact h.head
  · exact Ring.next_lt h.tail
  · intro w hw
    obtain ⟨hcount, hknows⟩ := h.writer w hw
    refine ⟨hcount, ?_⟩
    cases hw' : w.place with
    | store c rest tested => exact fun _ => hroom
    | publish c rest tested =>
      rw [hw'] at hknows
      exact ⟨hknows.1, fun _ => hroom⟩
    | _ => trivial
  · intro r' hr'
    obtain rfl := Option.some.inj hr'
    refine ⟨?_, trivial⟩
    show r.since + (r.length + 1) = (s.delivered ++ [b]).length
    rw [List.length_append, ← hcount, Nat.add_assoc]
    rfl

/-! ### Calls that begin and end -/

theorem Inv.writer_moved (hw : w ∈ s.writer) : s.accepted.length - w.since = w.length := by
  have hcount := (h.writer w hw).1
  omega

theorem Inv.reader_moved (hr : r ∈ s.reader) : s.delivered.length - r.since = r.length := by
  have hcount := (h.reader r hr).1
  omega

end

theorem results_append {cs : List (Int × Nat)} {result : Int} {moved : Nat}
    (hcs : ∀ c ∈ cs, 0 ≤ c.1 ∨ c.2 ≠ 0 → c.1 = c.2) (hres : 0 ≤ result ∨ moved ≠ 0 → result = moved) :
    ∀ c ∈ cs ++ [(result, moved)], 0 ≤ c.1 ∨ c.2 ≠ 0 → c.1 = c.2 := by
  intro c hc
  rcases List.mem_append.mp hc with hc | hc
  · exact hcs c hc
  · obtain rfl := List.mem_singleton.mp hc
    exact hres

section
variable (h : s.Inv) {result : Int} {op : PipeOp}
include h

theorem Inv.writerReturns (hw : w ∈ s.writer)
    (hres : 0 ≤ result ∨ w.length ≠ 0 → result = w.length) : (s.writerReturns w result).Inv where
  books := h.books
  results := results_append h.results (by rwa [h.writer_moved hw])
  head := h.head
  tail := h.tail
  writer := fun _ hw' => by cases hw'
  reader := h.reader

theorem Inv.readerReturns (hr : r ∈ s.reader)
    (hres : 0 ≤ result ∨ r.length ≠ 0 → result = r.length) : (s.readerReturns r result).Inv where
  books := h.books
  results := results_append h.results (by rwa [h.reader_moved hr])
  head := h.head
  tail := h.tail
  writer := h.writer
  reader := fun _ hr' => by cases hr'

theorem Inv.beginWrite (bytes : List UInt8) : (s.beginWrite bytes).Inv where
  books := h.books
  results := h.results
  head := h.head
  tail := h.tail
  writer := by
    intro w hw
    obtain rfl := Option.some.inj hw
    exact ⟨rfl, trivial⟩
  reader := h.reader

theorem Inv.beginRead (maxlen : Nat) : (s.beginRead maxlen).Inv where
  books := h.books
  results := h.results
  head := h.head
  tail := h.tail
  writer := h.writer
  reader := by
    intro r hr
    obtain rfl := Option.some.inj hr
    exact ⟨rfl, rfl⟩

theorem Inv.writerStep (hw : w ∈ s.writer) (hcare : s.Careful .writer) : (s.writerStep w).Inv := by
  have hknows := (h.writer w hw).2
  have hheeds := hcare w hw
  unfold Pipe.writerStep
  cases hplace : w.place with
  | loop bytes =>
    cases bytes with
    | nil => exact h.writerTo hw trivial
    | cons b rest =>
      dsimp only
      split_ifs with hfull hnonblock
      · exact h.writerTo hw trivial
      · exact h.writerTo hw trivial
      · exact h.writerTo hw fun _ => hfull
  | full b rest => exact (h.rouseReader false).writerTo (by rwa [rouseReader_writer]) trivial
  | wait b rest => exact h.writerTo hw trivial
  | asleep b rest => exact h
  | woken b rest intr =>
    cases intr with
    | false => exact h.writerTo hw fun hno => by cases hno
    | true =>
      refine h.writerReturns hw ?_
      rintro (hpos | hne)
      · exact absurd hpos (by decide)
      · rw [hplace] at hheeds
        exact absurd hheeds hne
  | store b rest tested => exact h.store hw hplace
  | publish b rest tested =>
    rw [hplace] at hknows hheeds
    refine h.publish hw hplace ?_
    cases tested with
    | true => exact hknows.2 rfl
    | false => exact hheeds
  | wake => exact (h.rouseReader false).writerTo (by rwa [rouseReader_writer]) trivial
  | release => exact h.writerReturns hw fun _ => rfl

theorem Inv.readerStep (hr : r ∈ s.reader) : (s.readerStep r).Inv := by
  have hsees := (h.reader r hr).2
  unfold Pipe.readerStep
  cases hplace : r.place with
  | first n =>
    rw [hplace] at hsees
    have hzero : r.length = 0 := hsees
    dsimp only
    split_ifs with hempty hnonblock
    · exact h.readerReturns hr fun _ => by rw [hzero]; rfl
    · exact h.readerTo hr hzero
    · exact h.readerTo hr trivial
  | wait n =>
    rw [hplace] at hsees
    exact h.readerTo hr hsees
  | asleep n => exact h
  | woken n intr =>
    rw [hplace] at hsees
    have hzero : r.length = 0 := hsees
    cases intr with
    | false => exact h.readerTo hr trivial
    | true =>
      refine h.readerReturns hr ?_
      rintro (hpos | hne)
      · exact absurd hpos (by decide)
      · exact absurd hzero hne
  | loop n =>
    cases n with
    | zero => exact h.readerTo hr trivial
    | succ n =>
      dsimp only
      split_ifs with hempty
      · exact h.readerTo hr trivial
      · exact h.readerTo hr hempty
  | fetch n =>
    rw [hplace] at hsees
    exact h.readerTo hr ⟨hsees, rfl⟩
  | advance n b => exact h.advance hr hplace
  | wake => exact (h.rouseWriter false).readerTo (by rwa [rouseWriter_reader]) trivial
  | release => exact h.readerReturns hr fun _ => rfl

theorem Inv.congr {rd wr closing freed : Bool} :
    { s with rd := rd, wr := wr, closing := closing, freed := freed }.Inv :=
  ⟨⟨h.books, h.results⟩, h.head, h.tail, h.writer, h.reader⟩

theorem Inv.step (hen : s.Enabled op) (hcare : s.Careful op) : (s.step op).Inv := by
  cases op with
  | write bytes => exact h.beginWrite bytes
  | read maxlen => exact h.beginRead maxlen
  | refused e =>
    refine ⟨⟨h.books, results_append h.results ?_⟩, h.head, h.tail, h.writer, h.reader⟩
    rintro (hpos | hne)
    · exact Int.le_antisymm hen.2 hpos
    · exact absurd rfl hne
  | writer =>
    cases hw : s.writer with
    | none => exact absurd hw hen.2
    | some w =>
      simp only [Pipe.step, hw, Option.elim_some]
      exact h.writerStep hw hcare
  | reader =>
    cases hr : s.reader with
    | none => exact absurd hr hen.2
    | some r =>
      simp only [Pipe.step, hr, Option.elim_some]
      exact h.readerStep hr
  | interruptWriter => exact h.rouseWriter true
  | interruptReader => exact h.rouseReader true
  | closeRead => exact h.congr
  | closeWrite => exact h.congr
  | flush => exact (h.beginWrite []).congr
  | flushRefused => exact h.congr
  | delete =>
    unfold Pipe.step
    dsimp only
    split_ifs
    · exact h
    · exact h.congr

theorem Inv.overrun (hfull : s.Full) {b : UInt8} :
    s.accepted ++ [b] ≠
      s.delivered ++ Ring.items PIPE_BUFFER_SIZE s.data (Ring.next PIPE_BUFFER_SIZE s.head) s.tail := by
  intro hbooks
  have hfull' : Ring.next PIPE_BUFFER_SIZE s.head = s.tail := hfull
  rw [hfull', Ring.items_empty, List.append_nil, h.books] at hbooks
  have hlength := congrArg List.length hbooks
  simp only [List.length_append, List.length_singleton] at hlength
  omega

theorem Inv.careful (hf : (s.step op).Faithful) : s.Careful op := by
  cases op with
  | writer =>
    intro w hw
    simp only [Pipe.step, Option.mem_def.mp hw, Option.elim_some, Pipe.writerStep] at hf
    cases hplace : w.place with
    | publish b rest tested =>
      cases tested with
      | true => trivial
      | false =>
        intro hfull
        rw [hplace] at hf
        exact h.overrun hfull hf.books
    | woken b rest intr =>
      cases intr with
      | false => trivial
      | true =>
        rw [hplace] at hf
        by_contra hne
        have hlast := hf.results (-Sched.EINTR, s.accepted.length - w.since) (by simp [Pipe.writerReturns])
        rw [h.writer_moved hw] at hlast
        have hneg : -Sched.EINTR = (w.length : Int) := hlast (.inr hne)
        unfold Sched.EINTR at hneg
        omega
    | _ => trivial
  | _ => trivial

end

/-- In every run of reads and writes the pipe is faithful, exactly if every step is careful. -/
theorem pipe_faithful_iff (rnonblock wnonblock : Bool) (ops : List PipeOp)
    (hops : Steps.Along step Enabled (Pipe.create rnonblock wnonblock) ops) :
    Steps.Along step (fun s op => (s.step op).Faithful) (Pipe.create rnonblock wnonblock) ops ↔
      Steps.Along step Careful (Pipe.create rnonblock wnonblock) ops :=
  Steps.Along.exact (I := Inv) (fun _ _ h hen hcare => h.step hen hcare) (fun _ h => h.toFaithful)
    (fun _ _ h _ hf => h.careful hf) (Inv.create rnonblock wnonblock) hops

theorem pipe_faithful_two_bytes :
    Steps.Along step (fun s op => (s.step op).Faithful) (Pipe.create false false)
      ([.read 5, .reader, .reader, .write [7, 8]] ++ List.replicate 9 .writer ++ List.replicate 10 .reader) :=
  (pipe_faithful_iff false false _ (by decide +kernel)).mpr (by decide +kernel)

/-! ### A writer that blocks -/

structure Alone (s : Pipe) (n : Nat) (place : WriterAt) : Prop where
  head : s.head = n
  tail : s.tail = 0
  wnonblock : s.wnonblock = false
  reader : s.reader = none
  writer : s.writer = some ⟨place, n, 0⟩
  freed : s.freed = false
  accepted : s.accepted.length = n
  delivered : s.delivered = []

theorem Alone.enabled (h : s.Alone n place) : s.Enabled .writer :=
  ⟨h.freed, by rw [h.writer]; exact Option.some_ne_none _⟩

theorem Alone.step_eq (h : s.Alone n place) :
    s.step .writer = s.writerStep ⟨place, n, 0⟩ := by
  simp only [Pipe.step, h.writer, Option.elim_some]

theorem Alone.writerTo {place' : WriterAt} (h : s.Alone n place) :
    (s.writerTo ⟨place, n, 0⟩ place').Alone n place' :=
  ⟨h.head, h.tail, h.wnonblock, h.reader, rfl, h.freed, h.accepted, h.delivered⟩

theorem Alone.byte (h : s.Alone n (.loop (b :: rest)))
    (hroom : n + 1 < PIPE_BUFFER_SIZE) :
    Steps.Along step Enabled s (List.replicate 3 .writer) ∧
      ((List.replicate 3 PipeOp.writer).foldl step s).Alone (n + 1) (.loop rest) := by
  have hnext : Ring.next PIPE_BUFFER_SIZE n = n + 1 := Nat.mod_eq_of_lt hroom
  have hfull : ¬ s.Full := by
    unfold Full
    rw [h.head, h.tail, hnext]
    omega
  have h1 : (s.step .writer).Alone n (.store b rest true) := by
    rw [h.step_eq]
    simp only [Pipe.writerStep, hfull, if_false]
    exact h.writerTo
  have h2 : ((s.step .writer).step .writer).Alone n (.publish b rest true) := by
    rw [h1.step_eq]
    exact ⟨h1.head, h1.tail, h1.wnonblock, h1.reader, rfl, h1.freed, h1.accepted, h1.delivered⟩
  have h3 : (((s.step .writer).step .writer).step .writer).Alone (n + 1) (.loop rest) := by
    rw [h2.step_eq]
    refine ⟨?_, h2.tail, h2.wnonblock, h2.reader, rfl, h2.freed, ?_, h2.delivered⟩
    · exact (congrArg _ h2.head).trans hnext
    · show (_ ++ [b]).length = n + 1
      rw [List.length_append, h2.accepted]
      rfl
  exact ⟨⟨h.enabled, h1.enabled, h2.enabled, trivial⟩, h3⟩

theorem Alone.bytes {k : Nat} (h : s.Alone n (.loop (List.replicate k b ++ rest)))
    (hroom : n + k < PIPE_BUFFER_SIZE) :
    Steps.Along step Enabled s (List.replicate (k * 3) .writer) ∧
      ((List.replicate (k * 3) PipeOp.writer).foldl step s).Alone (n + k) (.loop rest) := by
  induction k generalizing n s with
  | zero => exact ⟨trivial, by simpa using h⟩
  | succ k ih =>
    obtain ⟨hen, hone⟩ := h.byte (by omega)
    obtain ⟨hen', hall⟩ := ih hone (by omega)
    rw [Nat.succ_mul, Nat.add_comm, List.replicate_add, List.foldl_append, Steps.Along.append]
    refine ⟨⟨hen, hen'⟩, ?_⟩
    rwa [Nat.add_right_comm, Nat.add_assoc] at hall

theorem Alone.blocks (h : s.Alone 4096 (.loop (b :: rest))) :
    Steps.Along step Enabled s [.writer, .writer, .writer] ∧
      ([PipeOp.writer, .writer, .writer].foldl step s).Alone 4096 (.asleep b rest) := by
  have hfull : s.Full := by
    unfold Full
    rw [h.head, h.tail]
    decide
  have h1 : (s.step .writer).Alone 4096 (.full b rest) := by
    rw [h.step_eq]
    simp only [Pipe.writerStep, hfull, h.wnonblock, if_true, Bool.false_eq_true, if_false]
    exact h.writerTo
  have h2 : ((s.step .writer).step .writer).Alone 4096 (.wait b rest) := by
    rw [h1.step_eq]
    simp only [Pipe.writerStep, wakeReader, Pipe.rouseReader, h1.reader]
    exact h1.writerTo
  have h3 : (((s.step .writer).step .writer).step .writer).Alone 4096 (.asleep b rest) := by
    rw [h2.step_eq]
    exact h2.writerTo
  exact ⟨⟨h.enabled, h1.enabled, h2.enabled, trivial⟩, h3⟩

/-- A write of one byte more than the buffer holds, up to where it sleeps. -/
def blockedWrite : List PipeOp :=
  .write (List.replicate 4096 0 ++ [0]) :: (List.replicate (4096 * 3) .writer ++ [.writer, .writer, .writer])

theorem blockedWrite_asleep : Steps.Along step Enabled (Pipe.create false false) blockedWrite ∧
    (blockedWrite.foldl step (Pipe.create false false)).Alone 4096 (.asleep 0 []) := by
  have h0 : ((Pipe.create false false).step (.write (List.replicate 4096 0 ++ [0]))).Alone 0
      (.loop (List.replicate 4096 0 ++ [0])) := ⟨rfl, rfl, rfl, rfl, rfl, rfl, rfl, rfl⟩
  obtain ⟨hen, h⟩ := h0.bytes (by decide)
  rw [Nat.zero_add] at h
  obtain ⟨hen', hasleep⟩ := h.blocks
  rw [blockedWrite, List.foldl_cons, List.foldl_append]
  exact ⟨⟨⟨rfl, rfl⟩, Steps.Along.append.mpr ⟨hen, hen'⟩⟩, hasleep⟩

theorem Alone.overrun (h : s.Alone 4096 (.asleep 0 [])) :
    Steps.Along step Enabled s [.read 0, .reader, .reader, .reader, .writer, .writer, .writer] ∧
      ([PipeOp.read 0, .reader, .reader, .reader, .writer, .writer, .writer].foldl step s).ring = [] ∧
      ([PipeOp.read 0, .reader, .reader, .reader, .writer, .writer, .writer].foldl step s).accepted.length = 4097 ∧
      ([PipeOp.read 0, .reader, .reader, .reader, .writer, .writer, .writer].foldl step s).delivered = [] := by
  obtain ⟨head, tail, data, rnonblock, wnonblock, reader, writer, rd, wr, closing, freed, accepted, delivered,
    results⟩ := s
  obtain ⟨rfl, rfl, rfl, rfl, rfl, rfl, haccepted, rfl⟩ := h
  refine ⟨?_, ?_, ?_, rfl⟩
  · exact ⟨⟨rfl, rfl⟩, ⟨rfl, Option.some_ne_none _⟩, ⟨rfl, Option.some_ne_none _⟩, ⟨rfl, Option.some_ne_none _⟩,
      ⟨rfl, Option.some_ne_none _⟩, ⟨rfl, Option.some_ne_none _⟩, ⟨rfl, Option.some_ne_none _⟩, trivial⟩
  · show Ring.items PIPE_BUFFER_SIZE _ (Ring.next PIPE_BUFFER_SIZE 4096) 0 = []
    rw [show Ring.next PIPE_BUFFER_SIZE 4096 = 0 by decide]
    exact Ring.items_empty
  · show (accepted ++ [0]).length = 4097
    rw [List.length_append]
    exact congrArg (· + 1) haccepted

theorem Alone.interrupted (h : s.Alone 4096 (.asleep 0 [])) :
    Steps.Along step Enabled s [.interruptWriter, .writer] ∧
      (-Sched.EINTR, 4096) ∈ ([PipeOp.interruptWriter, .writer].foldl step s).results := by
  obtain ⟨head, tail, data, rnonblock, wnonblock, reader, writer, rd, wr, closing, freed, accepted, delivered,
    results⟩ := s
  obtain ⟨rfl, rfl, rfl, rfl, rfl, rfl, haccepted, rfl⟩ := h
  refine ⟨⟨rfl, ⟨rfl, Option.some_ne_none _⟩, trivial⟩, ?_⟩
  show (-Sched.EINTR, 4096) ∈ results ++ [(-Sched.EINTR, accepted.length - 0)]
  rw [show accepted.length = 4096 from haccepted]
  simp

/-- In one run 4097 bytes go in, none comes out, and the buffer looks empty; in one an interrupted write has put in 4096
bytes and does not say so. -/
theorem pipe_unfaithful :
    (∃ ops, Steps.Along step Enabled (Pipe.create false false) ops ∧
      (ops.foldl step (Pipe.create false false)).accepted.length = 4097 ∧
      (ops.foldl step (Pipe.create false false)).delivered = [] ∧
      (ops.foldl step (Pipe.create false false)).ring = []) ∧
    ∃ ops, Steps.Along step Enabled (Pipe.create false false) ops ∧
      (-Sched.EINTR, 4096) ∈ (ops.foldl step (Pipe.create false false)).results := by
  obtain ⟨hen, hasleep⟩ := blockedWrite_asleep
  obtain ⟨hover, hring, haccepted, hdelivered⟩ := hasleep.overrun
  obtain ⟨hintr, hresult⟩ := hasleep.interrupted
  constructor
  · refine ⟨blockedWrite ++ [.read 0, .reader, .reader, .reader, .writer, .writer, .writer], ?_⟩
    rw [List.foldl_append]
    exact ⟨Steps.Along.append.mpr ⟨hen, hover⟩, haccepted, hdelivered, hring⟩
  · refine ⟨blockedWrite ++ [.interruptWriter, .writer], ?_⟩
    rw [List.foldl_append]
    exact ⟨Steps.Along.append.mpr ⟨hen, hintr⟩, hresult⟩

/-- The writer comes to a wake-up of the readers before it sleeps or returns. -/
def wakesReader : WriterAt → Bool
  | .loop _ | .full _ _ | .store _ _ _ | .publish _ _ _ | .wake => true
  | _ => false

/-- The reader comes to a wake-up of the writers before it sleeps or returns. -/
def wakesWriter : ReaderAt → Bool
  | .loop _ | .fetch _ | .advance _ _ | .wake => true
  | _ => false

/-- Some thread still has a wake-up of the readers to perform: a writer, or a close of the write end. -/
def ReaderWake (s : Pipe) : Prop := (∃ w ∈ s.writer, wakesReader w.place = true) ∨ s.closing = true

/-- A reader still has a wake-up of the writers to perform. -/
def WriterWake (s : Pipe) : Prop := ∃ r ∈ s.reader, wakesWriter r.place = true

/-- A reader that sleeps waits for bytes that can still come, or it is about to be woken. -/
def ReaderFine (s : Pipe) : Prop := s.ReaderAsleep → s.Empty ∧ s.wr = true ∨ s.ReaderWake

/-- A writer that sleeps waits for room that can still come, or it is about to be woken. -/
def WriterFine (s : Pipe) : Prop := s.WriterAsleep → s.Full ∧ s.rd = true ∨ s.WriterWake

def NoStuck (s : Pipe) : Prop := s.ReaderFine ∧ s.WriterFine

def WriterTest (s : Pipe) : WriterAt → Prop
  | .wait _ _ => s.Full ∧ s.rd = true
  | _ => True

def ReaderTest (s : Pipe) : ReaderAt → Prop
  | .wait _ => s.Empty ∧ s.wr = true
  | _ => True

/-- What a call tested still holds when it goes to sleep, and the close of an end wakes those that sleep at the other
one. -/
def Prompt (s : Pipe) : PipeOp → Prop
  | .reader => ∀ r ∈ s.reader, s.ReaderTest r.place
  | .writer => ∀ w ∈ s.writer, s.WriterTest w.place
  | .closeRead => ¬ s.WriterAsleep
  | .closeWrite => s.rd = true ∨ ¬ s.ReaderAsleep
  | .flushRefused => ¬ s.ReaderAsleep
  | _ => True

instance : (place : WriterAt) → Decidable (s.WriterTest place)
  | .wait _ _ => inferInstanceAs (Decidable (s.Full ∧ s.rd = true))
  | .loop _ | .full _ _ | .asleep _ _ | .woken _ _ _ | .store _ _ _ | .publish _ _ _ | .wake | .release =>
    inferInstanceAs (Decidable True)

instance : (place : ReaderAt) → Decidable (s.ReaderTest place)
  | .wait _ => inferInstanceAs (Decidable (s.Empty ∧ s.wr = true))
  | .first _ | .asleep _ | .woken _ _ | .loop _ | .fetch _ | .advance _ _ | .wake | .release =>
    inferInstanceAs (Decidable True)

instance : (op : PipeOp) → Decidable (s.Prompt op)
  | .reader => inferInstanceAs (Decidable (∀ r ∈ s.reader, s.ReaderTest r.place))
  | .writer => inferInstanceAs (Decidable (∀ w ∈ s.writer, s.WriterTest w.place))
  | .closeRead => inferInstanceAs (Decidable (¬ s.WriterAsleep))
  | .closeWrite => inferInstanceAs (Decidable (s.rd = true ∨ ¬ s.ReaderAsleep))
  | .flushRefused => inferInstanceAs (Decidable (¬ s.ReaderAsleep))
  | .write _ | .read _ | .refused _ | .interruptWriter | .interruptReader | .flush | .delete =>
    inferInstanceAs (Decidable True)

theorem not_writerAsleep (hw : w ∈ s.writer) (hplace : ∀ b rest, w.place ≠ .asleep b rest) : ¬ s.WriterAsleep := by
  rintro ⟨w', hw', b, rest, hasleep⟩
  obtain rfl : w = w' := Option.mem_unique hw hw'
  exact hplace b rest hasleep

theorem not_readerAsleep (hr : r ∈ s.reader) (hplace : ∀ n, r.place ≠ .asleep n) : ¬ s.ReaderAsleep := by
  rintro ⟨r', hr', n, hasleep⟩
  obtain rfl : r = r' := Option.mem_unique hr hr'
  exact hplace n hasleep

theorem NoStuck.of_writer (hw : w ∈ s.writer) (hwakes : wakesReader w.place = true) : s.NoStuck := by
  refine ⟨fun _ => .inr (.inl ⟨w, hw, hwakes⟩), fun hasleep => ?_⟩
  refine absurd hasleep (not_writerAsleep hw fun b rest hplace => ?_)
  rw [hplace] at hwakes
  cases hwakes

theorem NoStuck.of_reader (hr : r ∈ s.reader) (hwakes : wakesWriter r.place = true) : s.NoStuck := by
  refine ⟨fun hasleep => ?_, fun _ => .inr ⟨r, hr, hwakes⟩⟩
  refine absurd hasleep (not_readerAsleep hr fun n hplace => ?_)
  rw [hplace] at hwakes
  cases hwakes

theorem ReaderFine.congr (h : s.ReaderFine) (hw : ∀ w ∈ s.writer, wakesReader w.place = false)
    (hreader : t.reader = s.reader) (hhead : t.head = s.head) (htail : t.tail = s.tail) (hwr : t.wr = s.wr)
    (hclosing : t.closing = s.closing) : t.ReaderFine := by
  intro hasleep
  have hs : s.ReaderAsleep := by
    unfold ReaderAsleep at *
    rwa [hreader] at hasleep
  rcases h hs with ⟨hempty, hopen⟩ | ⟨w, hmem, hwakes⟩ | hclose
  · exact .inl ⟨by unfold Empty at *; rw [hhead, htail]; exact hempty, hwr ▸ hopen⟩
  · rw [hw w hmem] at hwakes
    cases hwakes
  · exact .inr (.inr (hclosing ▸ hclose))

theorem WriterFine.congr (h : s.WriterFine) (hr : ∀ r ∈ s.reader, wakesWriter r.place = false)
    (hwriter : t.writer = s.writer) (hhead : t.head = s.head) (htail : t.tail = s.tail) (hrd : t.rd = s.rd) :
    t.WriterFine := by
  intro hasleep
  have hs : s.WriterAsleep := by
    unfold WriterAsleep at *
    rwa [hwriter] at hasleep
  rcases h hs with ⟨hfull, hopen⟩ | ⟨r, hmem, hwakes⟩
  · exact .inl ⟨by unfold Full at *; rw [hhead, htail]; exact hfull, hrd ▸ hopen⟩
  · rw [hr r hmem] at hwakes
    cases hwakes

theorem rouseReader_awake : ¬ (s.rouseReader intr).ReaderAsleep := by
  rcases s.rouseReader_cases intr with ⟨heq, hawake⟩ | ⟨r, -, n, -, heq⟩ <;> rw [heq]
  · exact hawake
  · exact not_readerAsleep rfl fun _ hplace => by cases hplace

theorem rouseWriter_awake : ¬ (s.rouseWriter intr).WriterAsleep := by
  rcases s.rouseWriter_cases intr with ⟨heq, hawake⟩ | ⟨w, -, b, rest, -, heq⟩ <;> rw [heq]
  · exact hawake
  · exact not_writerAsleep rfl fun _ _ hplace => by cases hplace

theorem noStuck_wakeReader (w : Call WriterAt) (hplace : ∀ b rest, place ≠ .asleep b rest) :
    (s.wakeReader.writerTo w place).NoStuck :=
  ⟨fun hasleep => absurd hasleep (rouseReader_awake (s := s) false),
    fun hasleep => absurd hasleep (not_writerAsleep rfl hplace)⟩

theorem noStuck_wakeWriter (r : Call ReaderAt) {place : ReaderAt} (hplace : ∀ n, place ≠ .asleep n) :
    (s.wakeWriter.readerTo r place).NoStuck :=
  ⟨fun hasleep => absurd hasleep (not_readerAsleep rfl hplace),
    fun hasleep => absurd hasleep (rouseWriter_awake (s := s) false)⟩

section
variable (h : s.NoStuck)
include h

theorem NoStuck.writerStep (hw : w ∈ s.writer) (hprompt : s.Prompt .writer) :
    (s.writerStep w).NoStuck := by
  have hsilent : wakesReader w.place = false → ∀ w' ∈ s.writer, wakesReader w'.place = false := by
    intro hno w' hw'
    obtain rfl : w = w' := Option.mem_unique hw hw'
    exact hno
  unfold Pipe.writerStep
  cases hplace : w.place with
  | loop bytes =>
    cases bytes with
    | nil => exact .of_writer rfl rfl
    | cons b rest =>
      dsimp only
      split_ifs with hfull hnonblock
      · exact .of_writer rfl rfl
      · exact .of_writer rfl rfl
      · exact .of_writer rfl rfl
  | full b rest => exact noStuck_wakeReader w fun _ _ heq => by cases heq
  | wait b rest =>
    refine ⟨h.1.congr (hsilent (by rw [hplace]; rfl)) rfl rfl rfl rfl rfl, fun _ => .inl ?_⟩
    have htest := hprompt w hw
    rw [hplace] at htest
    exact htest
  | asleep b rest => exact h
  | woken b rest intr =>
    cases intr with
    | false => exact .of_writer rfl rfl
    | true =>
      refine ⟨h.1.congr (hsilent (by rw [hplace]; rfl)) rfl rfl rfl rfl rfl, ?_⟩
      rintro ⟨w', hw', -⟩
      cases hw'
  | store b rest tested => exact .of_writer rfl rfl
  | publish b rest tested => exact .of_writer rfl rfl
  | wake => exact noStuck_wakeReader w fun _ _ heq => by cases heq
  | release =>
    refine ⟨h.1.congr (hsilent (by rw [hplace]; rfl)) rfl rfl rfl rfl rfl, ?_⟩
    rintro ⟨w', hw', -⟩
    cases hw'

theorem NoStuck.readerStep (hr : r ∈ s.reader) (hprompt : s.Prompt .reader) :
    (s.readerStep r).NoStuck := by
  have hsilent : wakesWriter r.place = false → ∀ r' ∈ s.reader, wakesWriter r'.place = false := by
    intro hno r' hr'
    obtain rfl : r = r' := Option.mem_unique hr hr'
    exact hno
  unfold Pipe.readerStep
  cases hplace : r.place with
  | first n =>
    have hfine : ∀ t : Pipe, t.writer = s.writer → t.head = s.head → t.tail = s.tail → t.rd = s.rd → t.WriterFine :=
      fun t => h.2.congr (hsilent (by rw [hplace]; rfl))
    dsimp only
    split_ifs with hempty hnonblock
    · refine ⟨?_, hfine _ rfl rfl rfl rfl⟩
      rintro ⟨r', hr', -⟩
      cases hr'
    · exact ⟨fun hasleep => absurd hasleep (not_readerAsleep rfl fun _ heq => by cases heq), hfine _ rfl rfl rfl rfl⟩
    · exact .of_reader rfl rfl
  | wait n =>
    refine ⟨fun _ => .inl ?_, h.2.congr (hsilent (by rw [hplace]; rfl)) rfl rfl rfl rfl⟩
    have htest := hprompt r hr
    rw [hplace] at htest
    exact htest
  | asleep n => exact h
  | woken n intr =>
    cases intr with
    | false => exact .of_reader rfl rfl
    | true =>
      refine ⟨?_, h.2.congr (hsilent (by rw [hplace]; rfl)) rfl rfl rfl rfl⟩
      rintro ⟨r', hr', -⟩
      cases hr'
  | loop n =>
    cases n with
    | zero => exact .of_reader rfl rfl
    | succ n =>
      dsimp only
      split_ifs with hempty
      · exact .of_reader rfl rfl
      · exact .of_reader rfl rfl
  | fetch n => exact .of_reader rfl rfl
  | advance n b => exact .of_reader rfl rfl
  | wake => exact noStuck_wakeWriter r fun _ heq => by cases heq
  | release =>
    refine ⟨?_, h.2.congr (hsilent (by rw [hplace]; rfl)) rfl rfl rfl rfl⟩
    rintro ⟨r', hr', -⟩
    cases hr'

theorem NoStuck.rouseWriter (intr : Bool) : (s.rouseWriter intr).NoStuck := by
  refine ⟨?_, fun hasleep => absurd hasleep (rouseWriter_awake intr)⟩
  rcases s.rouseWriter_cases intr with ⟨heq, -⟩ | ⟨w, hw, b, rest, hplace, heq⟩ <;> rw [heq]
  · exact h.1
  · refine h.1.congr (fun w' hw' => ?_) rfl rfl rfl rfl rfl
    obtain rfl : w = w' := Option.mem_unique hw hw'
    rw [hplace]
    rfl

theorem NoStuck.rouseReader (intr : Bool) : (s.rouseReader intr).NoStuck := by
  refine ⟨fun hasleep => absurd hasleep (rouseReader_awake intr), ?_⟩
  rcases s.rouseReader_cases intr with ⟨heq, -⟩ | ⟨r, hr, n, hplace, heq⟩ <;> rw [heq]
  · exact h.2
  · refine h.2.congr (fun r' hr' => ?_) rfl rfl rfl rfl
    obtain rfl : r = r' := Option.mem_unique hr hr'
    rw [hplace]
    rfl

theorem NoStuck.step {op : PipeOp} (hen : s.Enabled op) (hprompt : s.Prompt op) :
    (s.step op).NoStuck := by
  cases op with
  | write bytes => exact .of_writer rfl rfl
  | read maxlen =>
    refine ⟨fun hasleep => absurd hasleep (not_readerAsleep rfl fun _ heq => by cases heq), ?_⟩
    refine h.2.congr (fun r hr => ?_) rfl rfl rfl rfl
    rw [hen.2] at hr
    cases hr
  | refused e => exact h
  | writer =>
    cases hw : s.writer with
    | none => exact absurd hw hen.2
    | some w =>
      simp only [Pipe.step, hw, Option.elim_some]
      exact h.writerStep hw hprompt
  | reader =>
    cases hr : s.reader with
    | none => exact absurd hr hen.2
    | some r =>
      simp only [Pipe.step, hr, Option.elim_some]
      exact h.readerStep hr hprompt
  | interruptWriter => exact h.rouseWriter true
  | interruptReader => exact h.rouseReader true
  | closeRead => exact ⟨h.1, fun hasleep => absurd hasleep hprompt⟩
  | closeWrite =>
    refine ⟨fun hasleep => ?_, h.2⟩
    rcases hprompt with hopen | hawake
    · exact .inr (.inr hopen)
    · exact absurd hasleep hawake
  | flush => exact .of_writer rfl rfl
  | flushRefused => exact ⟨fun hasleep => absurd hasleep hprompt, h.2⟩
  | delete =>
    unfold Pipe.step
    dsimp only
    split_ifs
    · exact h
    · exact h

end

/-- In every run of reads, writes and closes whose steps are prompt, no thread is ever stuck. -/
theorem pipe_no_stuck (rnonblock wnonblock : Bool) (ops : List PipeOp)
    (hops : Steps.Along step (fun s op => s.Enabled op ∧ s.Prompt op) (Pipe.create rnonblock wnonblock) ops) :
    Steps.Along step (fun s op => (s.step op).NoStuck) (Pipe.create rnonblock wnonblock) ops := by
  have hinit : (Pipe.create rnonblock wnonblock).NoStuck := by
    constructor
    · rintro ⟨r, hr, -⟩
      cases hr
    · rintro ⟨w, hw, -⟩
      cases hw
  exact Steps.Along.imp (I := NoStuck) (fun _ _ h hop => h.step hop.1 hop.2) (fun _ _ h hop => h.step hop.1 hop.2)
    hinit hops

/-- A reader that sleeps is woken by a writer, reads a byte, and sleeps again until the write end is closed. -/
theorem pipe_no_stuck_closed :
    Steps.Along step (fun s op => (s.step op).NoStuck) (Pipe.create false false)
      ([.read 1, .reader, .reader, .write [7]] ++ List.replicate 6 .writer ++ List.replicate 7 .reader ++
        [.read 1, .reader, .reader, .closeWrite, .flush, .writer, .writer, .writer, .reader, .closeRead]) :=
  pipe_no_stuck false false _ (by decide +kernel)

/-- A reader finds the buffer empty, a writer puts in a byte and wakes nobody, and the reader goes to sleep. -/
def lateSleep : List PipeOp := [.read 1, .reader, .write [7]] ++ List.replicate 6 .writer ++ [.reader]

/-- The reader sleeps although there is a byte, and no thread is left that would wake it. -/
theorem pipe_reader_stuck :
    Steps.Along step Enabled (Pipe.create false false) lateSleep ∧
      (lateSleep.foldl step (Pipe.create false false)).ring = [7] ∧
      ¬ (lateSleep.foldl step (Pipe.create false false)).NoStuck := by
  refine ⟨by decide +kernel, by decide +kernel, fun hfine => ?_⟩
  have hasleep : (lateSleep.foldl step (Pipe.create false false)).ReaderAsleep := by decide +kernel
  rcases hfine.1 hasleep with ⟨hempty, -⟩ | ⟨w, hw, -⟩ | hclosing
  · exact absurd hempty (by decide +kernel)
  · have hnone : (lateSleep.foldl step (Pipe.create false false)).writer = none := by decide +kernel
    rw [hnone] at hw
    cases hw
  · exact absurd hclosing (by decide +kernel)

end Novino.Vfs.Pipes.Pipe
