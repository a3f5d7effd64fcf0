import Novino.Input.Device

/-! Readers of the keyboard and of the mouse get whole events. The buffer holds 256 of them, so that with reads of whole
    events the room in it is always one for whole events. -/

namespace Novino.Input

open Vfs.Pipes (PIPE_BUFFER_SIZE)

theorem length_flatMap (l : List Event) : (l.flatMap Event.bytes).length = 16 * l.length := by
  induction l with
  | nil => rfl
  | cons e l ih =>
    rw [List.flatMap_cons, List.length_append, ih, List.length_cons, show e.bytes.length = 16 from rfl]
    omega

theorem split_flatMap (l : List Event)
    (k : Nat) : (l.flatMap Event.bytes).take (16 * k) = (l.take k).flatMap Event.bytes ∧
    (l.flatMap Event.bytes).drop (16 * k) = (l.drop k).flatMap Event.bytes := by
  by_cases hk : k ≤ l.length
  · have hlen : ((l.take k).flatMap Event.bytes).length = 16 * k := by rw [length_flatMap, List.length_take_of_le hk]
    have hl : l.flatMap Event.bytes = (l.take k).flatMap Event.bytes ++ (l.drop k).flatMap Event.bytes := by
      rw [← List.flatMap_append, List.take_append_drop]
    exact ⟨hl ▸ List.take_left' hlen, hl ▸ List.drop_left' hlen⟩
  · have hlen : (l.flatMap Event.bytes).length ≤ 16 * k := by
      rw [length_flatMap]
      omega
    rw [List.take_of_length_le hlen, List.drop_of_length_le hlen, List.take_of_length_le (by omega),
      List.drop_of_length_le (by omega)]
    exact ⟨rfl, rfl⟩

namespace Pipe

variable {p : Pipe}

def items (p : Pipe) : List (BitVec 8) := Ring.items PIPE_BUFFER_SIZE p.data p.head p.tail

structure Sound (p : Pipe) : Prop where
  head : p.head < PIPE_BUFFER_SIZE
  tail : p.tail < PIPE_BUFFER_SIZE

theorem length_items (p : Pipe) : p.items.length = Ring.used PIPE_BUFFER_SIZE p.head p.tail := by
  rw [items, Ring.items, List.length_map, List.length_range]

theorem full_iff (hp : p.Sound) : Ring.next PIPE_BUFFER_SIZE p.head = p.tail ↔ p.items.length = 4096 := by
  have hh := hp.head
  have ht := hp.tail
  rw [length_items, Ring.next_eq hh]
  unfold Ring.used PIPE_BUFFER_SIZE at *
  split_ifs <;> omega

theorem write_full (hp : p.Sound) (hfull : p.items.length = 4096) (bs : List (BitVec 8)) : p.write bs = p := by
  cases bs with
  | nil => rfl
  | cons b bs => exact if_pos ((full_iff hp).mpr hfull)

theorem write_fits (hp : p.Sound) {bs : List (BitVec 8)} (hroom : p.items.length + bs.length ≤ 4096) :
    (p.write bs).Sound ∧ (p.write bs).items = p.items ++ bs := by
  induction bs generalizing p with
  | nil => exact ⟨hp, (List.append_nil _).symm⟩
  | cons b bs ih =>
    rw [List.length_cons] at hroom
    have hnext : Ring.next PIPE_BUFFER_SIZE p.head ≠ p.tail := fun hn => by
      have := (full_iff hp).mp hn
      omega
    have hitems : (p.push b).items = p.items ++ [b] := by
      have h : (p.push b).items = _ := Ring.items_push hp.head hp.tail hnext
      rw [Pipe.push, Ring.items_store hp.head hp.tail] at h
      exact h.trans (congrArg (fun b => p.items ++ [b]) (Function.update_self ..))
    have hs : (p.push b).Sound := ⟨Ring.next_lt hp.head, hp.tail⟩
    obtain ⟨hs, h⟩ := ih hs (by simp only [hitems, List.length_append, List.length_singleton]; omega)
    rw [write, if_neg hnext, h, hitems, List.append_assoc]
    exact ⟨hs, rfl⟩

theorem read_items (hp : p.Sound) (n : Nat) :
    (p.read n).1.Sound ∧ (p.read n).2 = p.items.take n ∧ (p.read n).1.items = p.items.drop n := by
  induction n generalizing p with
  | zero => exact ⟨hp, rfl, rfl⟩
  | succ n ih =>
    rw [read]
    split
    · rename_i hempty
      have hnil : p.items = [] := by
        rw [items, hempty]
        exact Ring.items_empty
      refine ⟨hp, ?_, ?_⟩ <;> rw [hnil] <;> rfl
    · rename_i hne
      obtain ⟨hs, htake, hdrop⟩ := ih (p := { p with tail := Ring.next PIPE_BUFFER_SIZE p.tail })
        ⟨hp.head, Ring.next_lt hp.tail⟩
      have hitems : p.items = _ := Ring.items_pop hp.head hp.tail hne
      rw [hitems]
      exact ⟨hs, congrArg _ htake, hdrop⟩

end Pipe

/-- The bytes that were read and those in the pipe are whole events, in their order. -/
structure Reader.Whole (r : Reader) : Prop where
  sound : r.pipe.Sound
  events : ∃ got left : List Event, (got ++ left).Sublist r.events ∧ r.got = got.flatMap Event.bytes ∧
    r.pipe.items = left.flatMap Event.bytes

variable {r : Reader} {d : Device}

theorem Reader.Whole.write (h : r.Whole) (e : Event) :
    (r.pipe.write e.bytes).Sound ∧ (r.pipe.write e.bytes).items = r.pipe.items ++ e.bytes ∨
      r.pipe.items.length = 4096 ∧ r.pipe.write e.bytes = r.pipe := by
  obtain ⟨got, left, -, -, hleft⟩ := h.events
  have hlen : r.pipe.items.length = 16 * left.length := hleft ▸ length_flatMap left
  have hlt : r.pipe.items.length < PIPE_BUFFER_SIZE := r.pipe.length_items ▸ Ring.used_lt h.sound.head
  unfold PIPE_BUFFER_SIZE at hlt
  by_cases hfull : r.pipe.items.length = 4096
  · exact .inr ⟨hfull, Pipe.write_full h.sound hfull _⟩
  · exact .inl (Pipe.write_fits h.sound (by rw [show e.bytes.length = 16 from rfl]; omega))

theorem Reader.Whole.put (h : r.Whole) (e : Event) :
    Reader.Whole { r with pipe := r.pipe.write e.bytes, events := r.events ++ [e] } := by
  obtain ⟨got, left, hsub, hgot, hleft⟩ := h.events
  rcases h.write e with ⟨hs, hitems⟩ | ⟨-, heq⟩
  · refine ⟨hs, got, left ++ [e], ?_, hgot, ?_⟩
    · rw [← List.append_assoc]
      exact hsub.append_right [e]
    · rw [hitems, hleft, List.flatMap_append, List.flatMap_singleton]
  · rw [heq]
    exact ⟨h.sound, got, left, hsub.trans (List.sublist_append_left ..), hgot, hleft⟩

theorem Reader.Whole.read (h : r.Whole) (k : Nat) :
    Reader.Whole { r with pipe := (r.pipe.read (16 * k)).1, got := r.got ++ (r.pipe.read (16 * k)).2 } := by
  obtain ⟨got, left, hsub, hgot, hleft⟩ := h.events
  obtain ⟨hs, htake, hdrop⟩ := Pipe.read_items h.sound (16 * k)
  obtain ⟨hk, hk'⟩ := split_flatMap left k
  refine ⟨hs, got ++ left.take k, left.drop k, ?_, ?_, ?_⟩
  · rwa [List.append_assoc, List.take_append_drop]
  · rw [hgot, htake, hleft, hk, List.flatMap_append]
  · rw [hdrop, hleft, hk']

def Op.Framed : Op → Prop
  | .read _ size => 16 ∣ size.toNat
  | _ => True

theorem put_whole (h : ∀ r ∈ d.pipes, r.Whole) (e : Event) : ∀ r ∈ (d.put e).pipes, r.Whole :=
  List.forall_mem_map.mpr fun r hr => (h r hr).put e

theorem kbdWrite_whole (h : ∀ r ∈ d.pipes, r.Whole) (ts : BitVec 64) (code value : BitVec 32) :
    ∀ r ∈ (d.kbdWrite ts code value).pipes, r.Whole := by
  unfold Device.kbdWrite
  refine put_whole ?_ _
  split
  · exact h
  · split <;> exact h

theorem step_whole {op : Op} (h : ∀ r ∈ d.pipes, r.Whole) (hop : op.Framed) :
    ∀ r ∈ (d.step op).pipes, r.Whole := by
  cases op with
  | kbd ts code value => exact kbdWrite_whole h ts code value
  | autoRepeat ts =>
    rw [Device.step, Device.kbdAutoRepeat]
    split
    · exact h
    · dsimp only
      split
      · exact kbdWrite_whole h ts _ 2
      · exact h
  | mouse ts type code value => exact put_whole h _
  | opens => exact List.forall_mem_cons.mpr ⟨⟨⟨by decide, by decide⟩, [], [], .refl _, rfl, Ring.items_empty⟩, h⟩
  | closes i => exact fun r hr => h r (List.mem_of_mem_eraseIdx hr)
  | read i size =>
    intro r hr
    obtain ⟨k, hk⟩ : 16 ∣ size.toNat % 2 ^ 32 := (Nat.dvd_mod_iff (by decide)).mpr hop
    rw [Device.step, hk] at hr
    obtain ⟨j, hj, rfl⟩ := List.mem_iff_getElem.mp hr
    rw [List.getElem_modify]
    split
    · exact (h _ (List.getElem_mem _)).read k
    · exact h _ (List.getElem_mem _)

/-- A reader has got whole events of those since it was opened, in their order, and the next event gets into its pipe as
a whole or not at all. -/
def Reader.GetsWhole (r : Reader) : Prop :=
  (∃ events : List Event, events.Sublist r.events ∧ r.got = events.flatMap Event.bytes) ∧
    ∀ e : Event, (r.pipe.write e.bytes).items = r.pipe.items ++ e.bytes ∨
      r.pipe.items.length = 4096 ∧ r.pipe.write e.bytes = r.pipe

/-- Every reader gets whole events in their order, whatever is put in, read, opened and closed in between. -/
theorem input_whole (ops : List Op) (hops : ∀ op ∈ ops, op.Framed) :
    ∀ r ∈ (ops.foldl Device.step {}).pipes, r.GetsWhole := by
  have hrun : ∀ d : Device, (∀ r ∈ d.pipes, r.Whole) → ∀ r ∈ (ops.foldl Device.step d).pipes, r.Whole := by
    induction ops with
    | nil => exact fun d hd => hd
    | cons op ops ih =>
      obtain ⟨hop, hops⟩ := List.forall_mem_cons.mp hops
      exact fun d hd => ih hops _ (step_whole hd hop)
  intro r hr
  have h := hrun {} nofun r hr
  obtain ⟨got, left, hsub, hgot, -⟩ := h.events
  exact ⟨⟨got, (List.sublist_append_left ..).trans hsub, hgot⟩, fun e => (h.write e).imp_left (·.2)⟩

/-- The last event finds the pipe full. -/
theorem input_whole_full :
    let d := (.opens :: List.replicate 257 (.mouse 1 2 3 4)).foldl Device.step {}
    d.pipes.map (fun r => (r.events.length, r.pipe.items.length)) = [(257, 4096)] ∧ ∀ r ∈ d.pipes, r.GetsWhole :=
  ⟨by decide +kernel, input_whole (.opens :: List.replicate 257 (.mouse 1 2 3 4))
    (List.forall_mem_cons.mpr ⟨trivial, fun op h => List.eq_of_mem_replicate h ▸ trivial⟩)⟩

end Novino.Input
