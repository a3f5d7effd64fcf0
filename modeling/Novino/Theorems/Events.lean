import Mathlib.Data.List.Basic
import Novino.Lib.Steps
import Novino.Usb.Events

/-! Events that are posted, taken by the handler and seen by polls. -/

namespace Novino.Usb

open Steps

namespace Events

/-- A completion that the handler has taken and no poll has returned yet. -/
def unseen (s : Events) : List Trb :=
  match s.poll, s.latest with
  | .found i, _ => [s.trb i]
  | _, some i => completions [s.trb i]
  | _, none => []

/-- Every event that was posted is taken in order, and the completion of each command is returned by the poll that waits
for it, or still there. -/
structure Good (s : Events) : Prop where
  ordered : s.handled <+: s.posted
  consumed : s.eint = false → s.handled = s.posted
  kept : completions s.handled = s.seen ++ s.unseen
  idle : s.poll = .idle → s.seen.length = s.submitted
  waits : s.poll ≠ .idle → s.seen.length + 1 = s.submitted
  shown : ∀ e ∈ s.unseen, s.poll = .looking TRB_TYPE_COMMAND_COMPLETION →
    ((s.step .look).step .clear).seen = s.seen ++ [e]

/-- The handler runs for one new event and does not overwrite a completion, and no poll gives up. -/
def Quiet (s : Events) : EventOp → Prop
  | .interrupt => s.posted.length = s.handled.length + 1 ∧ s.unseen = []
  | .expire => False
  | _ => True

structure Inv (s : Events) : Prop where
  ordered : s.handled <+: s.posted
  consumed : s.eint = false → s.handled = s.posted
  kept : completions s.handled = s.seen ++ s.unseen
  idle : s.poll = .idle → s.seen.length = s.submitted
  waits : s.poll ≠ .idle → s.seen.length + 1 = s.submitted
  place : s.index = s.handled.length % XHCI_MAX_EVENTS
  room : s.posted.length < s.handled.length + XHCI_MAX_EVENTS
  /-- The ring holds the events that are not taken yet and the last one that was. -/
  ring : ∀ k e, s.handled.length ≤ k + 1 → s.posted[k]? = some e → s.trb (k % XHCI_MAX_EVENTS) = e
  latest : ∀ i, s.latest = some i → ∃ k, s.handled.length = k + 1 ∧ i = k % XHCI_MAX_EVENTS
  found : ∀ i, s.poll = .found i → s.latest = some i ∧ (s.trb i).type = TRB_TYPE_COMMAND_COMPLETION
  looking : ∀ type, s.poll = .looking type → type = TRB_TYPE_COMMAND_COMPLETION

variable {s : Events} {i n : Nat}

theorem completions_concat (events : List Trb) (e : Trb) :
    completions (events ++ [e]) = completions events ++ completions [e] := List.filter_append ..

theorem completions_singleton (e : Trb) :
    completions [e] = if e.type = TRB_TYPE_COMMAND_COMPLETION then [e] else [] := by
  unfold completions
  rw [List.filter_singleton]
  simp

theorem unseen_of_latest (hp : ∀ i, s.poll ≠ .found i) (hl : s.latest = some i) :
    s.unseen = completions [s.trb i] := by
  unfold unseen
  cases hpoll : s.poll with
  | found i => exact absurd hpoll (hp i)
  | idle => rw [hl]
  | looking type => rw [hl]

theorem unseen_of_none (hp : ∀ i, s.poll ≠ .found i) (hl : s.latest = none) : s.unseen = [] := by
  unfold unseen
  cases hpoll : s.poll with
  | found i => exact absurd hpoll (hp i)
  | idle => rw [hl]
  | looking type => rw [hl]

theorem unseen_of_found (hp : s.poll = .found i) : s.unseen = [s.trb i] := by
  unfold unseen
  rw [hp]

theorem mod_ne {j k : Nat} (h : j < k) (hlt : k < j + XHCI_MAX_EVENTS) :
    j % XHCI_MAX_EVENTS ≠ k % XHCI_MAX_EVENTS := by
  unfold XHCI_MAX_EVENTS at *
  omega

theorem write_old (events : List Trb) (trb : Nat → Trb)
    (h : ∀ j, n ≤ j → j < n + events.length → i ≠ j % XHCI_MAX_EVENTS) : write trb n events i = trb i := by
  induction events generalizing trb n with
  | nil => rfl
  | cons e events ih =>
    rw [List.length_cons] at h
    rw [write, ih _ fun j h1 h2 => h j (by omega) (by omega)]
    exact Function.update_of_ne (h n (Nat.le_refl n) (by omega)) ..

theorem write_new (events : List Trb) (trb : Nat → Trb) {m : Nat} {e : Trb} (he : events[m]? = some e)
    (hsize : events.length ≤ XHCI_MAX_EVENTS) : write trb n events ((n + m) % XHCI_MAX_EVENTS) = e := by
  induction events generalizing trb n m with
  | nil => cases he
  | cons a events ih =>
    rw [List.length_cons] at hsize
    cases m with
    | zero =>
      cases he
      rw [write, write_old _ _ fun j h1 h2 => mod_ne (by omega) (by omega)]
      exact Function.update_self ..
    | succ m =>
      rw [List.getElem?_cons_succ] at he
      rw [write, show n + (m + 1) = n + 1 + m by omega]
      exact ih _ he (by omega)

section
variable (hs : Inv s)
include hs

theorem Inv.post {events : List Trb} (ha : s.Allowed (.post events)) : Inv (s.step (.post events)) := by
  obtain ⟨hne, hroom, -⟩ := ha
  have hle := hs.ordered.length_le
  -- The last event that the handler took stays in the ring.
  have hold : ∀ k, s.handled.length ≤ k + 1 → k < s.posted.length →
      write s.trb s.posted.length events (k % XHCI_MAX_EVENTS) = s.trb (k % XHCI_MAX_EVENTS) := by
    intro k hk hlt
    exact write_old _ _ fun j h1 h2 => mod_ne (by omega) (by omega)
  have hlatest : ∀ i, s.latest = some i → write s.trb s.posted.length events i = s.trb i := by
    intro i hi
    obtain ⟨k, hk, rfl⟩ := hs.latest i hi
    exact hold k (by omega) (by omega)
  have hunseen : (s.step (.post events)).unseen = s.unseen := by
    unfold unseen
    cases hpoll : s.poll with
    | found i =>
      simp only [step, hpoll]
      rw [hlatest i (hs.found i hpoll).1]
    | idle =>
      simp only [step, hpoll]
      cases hl : s.latest with
      | none => rfl
      | some i => simp only [hlatest i hl]
    | looking type =>
      simp only [step, hpoll]
      cases hl : s.latest with
      | none => rfl
      | some i => simp only [hlatest i hl]
  refine ⟨hs.ordered.trans (List.prefix_append _ _), fun h => Bool.noConfusion (show true = false from h), ?_, hs.idle,
    hs.waits, hs.place, ?_, fun k e hk he => ?_, hs.latest, fun i hi => ?_, hs.looking⟩
  · rw [hunseen]
    exact hs.kept
  · simp only [step, List.length_append]
    exact hroom
  · simp only [step] at hk he ⊢
    rcases Nat.lt_or_ge k s.posted.length with hlt | hge
    · rw [List.getElem?_append_left hlt] at he
      rw [hold k hk hlt]
      exact hs.ring k e hk he
    · rw [List.getElem?_append_right hge] at he
      have := write_new events s.trb (n := s.posted.length) he (by omega)
      rwa [show s.posted.length + (k - s.posted.length) = k by omega] at this
  · have hfound := hs.found i hi
    refine ⟨hfound.1, ?_⟩
    simp only [step]
    rw [hlatest i hfound.1]
    exact hfound.2

theorem Inv.interrupt (ha : s.Allowed .interrupt) (hq : s.Quiet .interrupt) : Inv (s.step .interrupt) := by
  obtain ⟨hone, hnone⟩ := hq
  obtain ⟨rest, hrest⟩ := hs.ordered
  have hlen : rest.length = 1 := by
    have := congrArg List.length hrest
    rw [List.length_append] at this
    omega
  obtain ⟨e, rfl⟩ := List.length_eq_one_iff.mp hlen
  have hget : s.posted[s.handled.length]? = some e := by
    rw [← hrest, List.getElem?_append_right (Nat.le_refl _), Nat.sub_self]
    rfl
  have htrb : s.trb s.index = e := by
    rw [hs.place]
    exact hs.ring _ e (by omega) hget
  have hnot : ∀ i, s.poll ≠ .found i := by
    intro i hi
    rw [unseen_of_found hi] at hnone
    cases hnone
  have hstep : s.step .interrupt =
      { s with
        eint := false
        latest := some s.index
        index := if s.index + 1 = XHCI_MAX_EVENTS then 0 else s.index + 1
        calls := s.calls ++ s.dispatch e
        handled := s.posted } := by
    simp only [step, handler]
    rw [if_pos (show s.eint = true from ha), htrb, hrest]
  have hunseen : (s.step .interrupt).unseen = completions [e] := by
    rw [hstep, ← htrb]
    exact unseen_of_latest hnot rfl
  rw [hstep] at hunseen ⊢
  refine ⟨List.prefix_refl _, fun _ => rfl, ?_, hs.idle, hs.waits, ?_, ?_, fun k e' hk he => ?_, fun i hi => ?_,
    fun i hi => absurd hi (hnot i), hs.looking⟩
  · rw [hunseen]
    simp only
    rw [← hrest, completions_concat, hs.kept, hnone, List.append_nil]
  · simp only [hs.place, hone]
    unfold XHCI_MAX_EVENTS
    split <;> omega
  · simp only
    unfold XHCI_MAX_EVENTS
    omega
  · exact hs.ring k e' (by simp only at hk; omega) he
  · cases hi
    exact ⟨s.handled.length, hone, hs.place⟩

theorem Inv.submit (ha : s.Allowed .submit) : Inv (s.step .submit) := by
  have hidle : s.poll = .idle := ha
  have hunseen : (s.step .submit).unseen = s.unseen := by
    unfold unseen
    simp only [step, hidle]
    cases s.latest <;> rfl
  refine ⟨hs.ordered, hs.consumed, ?_, fun h => Poll.noConfusion h, fun _ => ?_, hs.place, hs.room, hs.ring, hs.latest,
    fun i hi => Poll.noConfusion hi, fun type hi => ?_⟩
  · rw [hunseen]
    exact hs.kept
  · simp only [step]
    rw [hs.idle hidle]
  · cases hi
    rfl

theorem Inv.look (ha : s.Allowed .look) : Inv (s.step .look) := by
  have hpoll : s.poll = .looking TRB_TYPE_COMMAND_COMPLETION := ha
  have hnot : ∀ i, s.poll ≠ .found i := fun i h => by
    rw [hpoll] at h
    cases h
  cases hl : s.latest with
  | none =>
    have hstep : s.step .look = s := by simp only [step, Events.look, hpoll, hl]
    rw [hstep]
    exact hs
  | some i =>
    by_cases ht : (s.trb i).type = TRB_TYPE_COMMAND_COMPLETION
    · have hstep : s.step .look = { s with poll := .found i } := by
        simp only [step, Events.look, hpoll, hl, if_pos ht]
      rw [hstep]
      refine ⟨hs.ordered, hs.consumed, ?_, fun h => Poll.noConfusion h, fun _ => ?_, hs.place, hs.room, hs.ring,
        hs.latest, fun j hj => ?_, fun type hi => Poll.noConfusion hi⟩
      · have hkept := hs.kept
        rw [unseen_of_latest hnot hl, completions_singleton, if_pos ht] at hkept
        exact hkept
      · exact hs.waits (hpoll ▸ fun h => Poll.noConfusion h)
      · cases hj
        exact ⟨hl, ht⟩
    · have hstep : s.step .look = s := by simp only [step, Events.look, hpoll, hl, if_neg ht]
      rw [hstep]
      exact hs

theorem Inv.clear (ha : s.Allowed .clear) : Inv (s.step .clear) := by
  obtain ⟨i, hi⟩ := ha
  have hstep : s.step .clear = { s with latest := none, poll := .idle, seen := s.seen ++ [s.trb i] } := by
    simp only [step, Events.clear, hi]
  rw [hstep]
  refine ⟨hs.ordered, hs.consumed, ?_, fun _ => ?_, fun h => absurd rfl h, hs.place, hs.room, hs.ring,
    fun j hj => (by cases hj), fun j hj => Poll.noConfusion hj, fun type h => Poll.noConfusion h⟩
  · have hkept := hs.kept
    rw [unseen_of_found hi] at hkept
    exact hkept.trans (List.append_nil _).symm
  · simp only [List.length_append, List.length_singleton]
    exact hs.waits (hi ▸ fun h => Poll.noConfusion h)

theorem Inv.step {op : EventOp} (ha : s.Allowed op) (hq : s.Quiet op) : Inv (s.step op) := by
  cases op with
  | post events => exact hs.post ha
  | interrupt => exact hs.interrupt ha hq
  | submit => exact hs.submit ha
  | look => exact hs.look ha
  | clear => exact hs.clear ha
  | expire => exact absurd hq id

theorem Inv.good : Good s := by
  refine ⟨hs.ordered, hs.consumed, hs.kept, hs.idle, hs.waits, fun e he hpoll => ?_⟩
  have hnot : ∀ i, s.poll ≠ .found i := fun i h => by
    rw [hpoll] at h
    cases h
  cases hl : s.latest with
  | none =>
    rw [unseen_of_none hnot hl] at he
    cases he
  | some i =>
    rw [unseen_of_latest hnot hl, completions_singleton] at he
    split at he
    · rename_i ht
      obtain rfl := List.mem_singleton.mp he
      simp only [Events.step, Events.look, hpoll, hl, if_pos ht, Events.clear]
    · cases he

end

def start (trb : Nat → Trb) (hub : Bool) (endpoint : Nat → Nat → Bool) : Events := { trb, hub, endpoint }

theorem inv_start (trb : Nat → Trb) (hub : Bool) (endpoint : Nat → Nat → Bool) : Inv (start trb hub endpoint) where
  ordered := List.prefix_refl _
  consumed _ := rfl
  kept := rfl
  idle _ := rfl
  waits h := absurd rfl h
  place := rfl
  room := show 0 < XHCI_MAX_EVENTS by decide
  ring k e _ he := by cases he
  latest i hi := by cases hi
  found i hi := by cases hi
  looking type hi := by cases hi

/-- Every event is taken in order, and every completion is returned by the poll that waits for it, in quiet runs. -/
theorem events_good (trb : Nat → Trb) (hub : Bool) (endpoint : Nat → Nat → Bool) (ops : List EventOp)
    (h : Along Events.step (fun s op => s.Allowed op ∧ s.Quiet op) (start trb hub endpoint) ops) :
    Along Events.step (fun s op => (s.step op).Good) (start trb hub endpoint) ops :=
  Along.imp (I := Inv) (fun _ _ hs h => hs.step h.1 h.2) (fun _ _ hs h => (hs.step h.1 h.2).good)
    (inv_start trb hub endpoint) h

end Events

def eventOf (type : BitVec 32) : Trb := { flags := type <<< 10 }

def ready : Events := Events.start (fun _ => {}) true fun _ _ => false

def spaced : List EventOp :=
  [.submit, .post [eventOf TRB_TYPE_PORT_STATUS_CHANGE], .interrupt, .post [eventOf TRB_TYPE_COMMAND_COMPLETION],
    .interrupt, .look, .clear]

theorem events_good_spaced : Along Events.step (fun s op => (s.step op).Good) ready spaced :=
  Events.events_good (fun _ => {}) true (fun _ _ => false) spaced
    ⟨⟨rfl, trivial⟩, ⟨⟨by decide, by decide, by decide⟩, trivial⟩, ⟨rfl, rfl, rfl⟩,
      ⟨⟨by decide, by decide, by decide⟩, trivial⟩, ⟨rfl, rfl, rfl⟩, ⟨rfl, trivial⟩, ⟨⟨1, rfl⟩, trivial⟩, trivial⟩

def batched : List EventOp :=
  [.submit, .post [eventOf TRB_TYPE_PORT_STATUS_CHANGE, eventOf TRB_TYPE_COMMAND_COMPLETION], .interrupt, .look]

/-- No interrupt is pending, and the completion is neither taken nor seen by the poll that waits for it. -/
theorem completion_left : Along Events.step Events.Allowed ready batched ∧
    (batched.foldl Events.step ready).eint = false ∧
    (batched.foldl Events.step ready).handled = [eventOf TRB_TYPE_PORT_STATUS_CHANGE] ∧
    (batched.foldl Events.step ready).poll = .looking TRB_TYPE_COMMAND_COMPLETION ∧
    ¬(batched.foldl Events.step ready).Good := by
  refine ⟨⟨rfl, ⟨by decide, by decide, by decide⟩, rfl, rfl, trivial⟩, rfl, rfl, rfl, fun h => ?_⟩
  have hlength := congrArg List.length (h.consumed rfl)
  revert hlength
  decide

end Novino.Usb
