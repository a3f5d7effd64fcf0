import Novino.Lib.Fair
import Novino.Usb.Hub

/-! Notifications of ports and the runs of their handlers, along endless runs. -/

namespace Novino.Usb

open Fair

/-! ### Bits of the status -/

def Has (status : BitVec 32) (port : Nat) : Prop := status.getLsbD (port % 32) = true

instance (status : BitVec 32) (port : Nat) : Decidable (Has status port) := inferInstanceAs (Decidable (_ = true))

theorem getLsbD_bit (port k : Nat) : (bit port).getLsbD k = decide (k = port % 32) := by
  have hlt : port % 32 < 32 := Nat.mod_lt _ (by omega)
  rw [bit, ← BitVec.twoPow_eq, BitVec.getLsbD_twoPow, decide_eq_true hlt, Bool.true_and]
  exact decide_eq_decide.mpr eq_comm

theorem and_bit_ne_zero_iff (status : BitVec 32) (port : Nat) : status &&& bit port ≠ 0 ↔ Has status port := by
  have hlt : port % 32 < 32 := Nat.mod_lt _ (by omega)
  constructor
  · intro h
    by_contra hnot
    refine h (BitVec.eq_of_getLsbD_eq fun k _ => ?_)
    rw [BitVec.getLsbD_and, getLsbD_bit]
    by_cases hk : k = port % 32
    · have : status.getLsbD k = false := by
        rw [hk]
        exact Bool.eq_false_iff.mpr hnot
      simp [this]
    · simp [hk]
  · intro h h0
    have := congrArg (BitVec.getLsbD · (port % 32)) h0
    simp only [BitVec.getLsbD_and, getLsbD_bit, decide_true, Bool.and_true] at this
    rw [show status.getLsbD (port % 32) = true from h] at this
    simp at this

variable {status : BitVec 32}

theorem has_or_bit {other : Nat} :
    Has (status ||| bit other) port ↔ Has status port ∨ port % 32 = other % 32 := by
  unfold Has
  rw [BitVec.getLsbD_or, getLsbD_bit, Bool.or_eq_true, decide_eq_true_eq]

theorem has_and_not {copy : BitVec 32} :
    Has (status &&& ~~~copy) port ↔ Has status port ∧ ¬Has copy port := by
  have hlt : port % 32 < 32 := Nat.mod_lt _ (by omega)
  unfold Has
  simp [hlt]

theorem Has.ne_zero (h : Has status port) : status ≠ 0 := by
  rintro rfl
  unfold Has at h
  simp at h

namespace Hub

variable {h h' : Hub} {port : Nat} {op : HubOp}

theorem starts_eq_iff : h.starts = some port ↔
    port ≤ h.numberOfPorts ∧ ∃ status, h.place = .ports status port ∧ Has status port := by
  unfold starts
  split
  · rename_i status i hplace
    simp only [and_bit_ne_zero_iff]
    split
    · rename_i hc
      constructor
      · rintro ⟨⟩
        exact ⟨hc.1, status, hplace, hc.2⟩
      · rintro ⟨-, status', heq, -⟩
        rw [hplace] at heq
        cases heq
        rfl
    · rename_i hc
      refine iff_of_false (fun h => Option.some_ne_none _ h.symm) ?_
      rintro ⟨hle, status', heq, hhas⟩
      rw [hplace] at heq
      cases heq
      exact hc ⟨hle, hhas⟩
  · rename_i hplace
    refine iff_of_false (fun h => Option.some_ne_none _ h.symm) ?_
    rintro ⟨-, status, heq, -⟩
    exact hplace status port heq

/-- The handler of the port has been started in the round of the worker that will clear the bit of the port. -/
def Late (h : Hub) (port : Nat) : Prop := ∃ status i, h.place = .ports status i ∧ Has status port ∧ port < i

inductive Moves (h : Hub) : HubOp → Hub → Prop
  | notify (p : Nat) : Moves h (.notify p) { h with status := h.status ||| bit p }
  | roused (place : h.place = .asleep) : Moves h .signal { h with recv := false, place := .top }
  | flagged (place : h.place ≠ .asleep) : Moves h .signal { h with recv := true }
  | idle (place : h.place = .top) (status : h.status = 0) : Moves h .worker { h with place := .waiting }
  | read (place : h.place = .top) : Moves h .worker { h with place := .ports h.status 1 }
  | port {status : BitVec 32} {i : Nat} (place : h.place = .ports status i) (le : i ≤ h.numberOfPorts) :
      Moves h .worker { h with place := .ports status (i + 1) }
  | clear {status : BitVec 32} {i : Nat} (place : h.place = .ports status i) (lt : h.numberOfPorts < i) :
      Moves h .worker { h with status := h.status &&& ~~~status, place := .top }
  | again (place : h.place = .waiting) : Moves h .worker { h with recv := false, place := .top }
  | sleep (place : h.place = .waiting) (recv : h.recv ≠ true) : Moves h .worker { h with place := .asleep }
  | asleep (place : h.place = .asleep) : Moves h .worker h

theorem step_moves (h : Hub) (op : HubOp) : Moves h op (h.step op) := by
  cases op with
  | notify p => exact .notify p
  | signal =>
    simp only [step, signal]
    split
    · exact .roused ‹_›
    · exact .flagged ‹_›
  | worker =>
    simp only [step, work]
    split
    · split
      · exact .idle ‹_› ‹_›
      · exact .read ‹_›
    · split
      · exact .port ‹_› ‹_›
      · exact .clear ‹_› (Nat.lt_of_not_le ‹_›)
    · split
      · exact .again ‹_›
      · exact .sleep ‹_› ‹_›
    · exact .asleep ‹_›

theorem Moves.numberOfPorts (hm : Moves h op h') : h'.numberOfPorts = h.numberOfPorts := by
  cases hm <;> rfl

/-! ### A notification that is not late -/

/-- The handler of the port will be started: the bit of the port is set, and the worker will see it before it clears
    it. -/
structure Pending (port : Nat) (h : Hub) : Prop where
  valid : 1 ≤ port ∧ port ≤ h.numberOfPorts
  set : Has h.status port
  early : ¬h.Late port

theorem not_late_of {h : Hub} (hp : ∀ status i, h.place ≠ .ports status i) : ¬h.Late port := by
  rintro ⟨status, i, heq, -⟩
  exact hp status i heq

theorem Pending.moves (hs : Pending port h) (hm : Moves h op h') (hop : ¬h.Started op port) : Pending port h' := by
  refine ⟨by rw [hm.numberOfPorts]; exact hs.valid, ?_, ?_⟩
  · cases hm with
    | notify p => exact has_or_bit.mpr (.inl hs.set)
    | @clear status i hplace hlt =>
      refine has_and_not.mpr ⟨hs.set, fun hhas => hs.early ⟨status, i, hplace, hhas, ?_⟩⟩
      have := hs.valid
      omega
    | _ => exact hs.set
  · cases hm with
    | notify | flagged | asleep => exact hs.early
    | read hplace =>
      rintro ⟨status, i, heq, -, hlt⟩
      cases heq
      have := hs.valid
      omega
    | @port status i hplace hi =>
      rintro ⟨status', i', heq, hhas, hlt⟩
      cases heq
      have hge : ¬port < i := fun hlt => hs.early ⟨status, i, hplace, hhas, hlt⟩
      obtain rfl : port = i := by omega
      exact hop ⟨rfl, starts_eq_iff.mpr ⟨hi, status, hplace, hhas⟩⟩
    | _ => exact not_late_of (fun _ _ => Place.noConfusion)

/-- The worker does not sleep before it has seen the bit. -/
structure Ready (port : Nat) (h : Hub) : Prop extends Pending port h where
  awake : h.place ≠ .asleep
  woken : h.place = .waiting → h.recv = true

theorem Pending.signal (hs : Pending port h) (hm : Moves h .signal h') : Ready port h' := by
  refine ⟨hs.moves hm fun hop => HubOp.noConfusion hop.1, ?_, ?_⟩
  · cases hm with
    | roused => exact Place.noConfusion
    | flagged hplace => exact hplace
  · cases hm with
    | roused => exact Place.noConfusion
    | flagged => exact fun _ => rfl

theorem Ready.moves (hs : Ready port h) (hm : Moves h op h') (hop : ¬h.Started op port) : Ready port h' := by
  refine ⟨hs.toPending.moves hm hop, ?_, ?_⟩
  · cases hm with
    | notify | flagged | asleep => exact hs.awake
    | sleep hplace hrecv => exact absurd (hs.woken hplace) hrecv
    | _ => exact Place.noConfusion
  · cases hm with
    | notify | asleep => exact hs.woken
    | flagged => exact fun _ => rfl
    | idle _ hzero => exact absurd hzero hs.set.ne_zero
    | _ => exact Place.noConfusion

/-- The number of steps that the worker takes at most before it starts the handler of the port. -/
def rank (port : Nat) (h : Hub) : Nat :=
  match h.place with
  | .top => port
  | .ports status i => if Has status port then port - i else h.numberOfPorts + 1 - i + 1 + port
  | .waiting => port + 1
  | .asleep => 0

theorem Ready.rank_worker (hs : Ready port h) (hm : Moves h .worker h') (hop : ¬h.Started .worker port) :
    rank port h' < rank port h := by
  have hvalid := hs.valid
  cases hm with
  | idle _ hzero => exact absurd hzero hs.set.ne_zero
  | read hplace =>
    simp only [rank, hplace, if_pos hs.set]
    omega
  | @port status i hplace hi =>
    simp only [rank, hplace]
    by_cases hhas : Has status port
    · rw [if_pos hhas, if_pos hhas]
      have hge : ¬port < i := fun hlt => hs.early ⟨status, i, hplace, hhas, hlt⟩
      have hne : port ≠ i := by
        rintro rfl
        exact hop ⟨rfl, starts_eq_iff.mpr ⟨hi, status, hplace, hhas⟩⟩
      omega
    · rw [if_neg hhas, if_neg hhas]
      omega
  | @clear status i hplace hlt =>
    have hhas : ¬Has status port := fun hhas => hs.early ⟨status, i, hplace, hhas, by omega⟩
    simp only [rank, hplace, if_neg hhas]
    omega
  | again hplace =>
    simp only [rank, hplace]
    omega
  | sleep hplace hrecv => exact absurd (hs.woken hplace) hrecv
  | asleep hplace => exact absurd hplace hs.awake

theorem Ready.rank_other (hs : Ready port h) (hm : Moves h op h') (hop : op ≠ .worker) :
    rank port h' = rank port h := by
  cases hm with
  | notify | flagged => rfl
  | roused hplace => exact absurd hplace hs.awake
  | _ => exact absurd rfl hop

/-- The handler of the port will not be started: its bit is not set, or is about to be cleared. -/
def Lost (port : Nat) (h : Hub) : Prop :=
  h.Late port ∨ ¬Has h.status port ∧ ∀ status i, h.place = .ports status i → ¬Has status port

def Timely (h : Hub) (op : HubOp) (port : Nat) : Prop :=
  ∃ other, op = .notify other ∧ other % 32 = port % 32 ∧ ¬h.Late port

theorem Lost.not_started (hs : Lost port h) : ¬h.Started op port := by
  rintro ⟨-, hstart⟩
  obtain ⟨-, status, hplace, hhas⟩ := starts_eq_iff.mp hstart
  rcases hs with ⟨status', i, hplace', -, hlt⟩ | ⟨-, hnot⟩
  · rw [hplace] at hplace'
    cases hplace'
    omega
  · exact hnot status port hplace hhas

theorem Lost.moves (hs : Lost port h) (hm : Moves h op h') (hop : ¬h.Timely op port) : Lost port h' := by
  rcases hs with ⟨status, i, hplace, hhas, hlt⟩ | ⟨hset, hcopy⟩
  · cases hm with
    | notify | flagged => exact .inl ⟨status, i, hplace, hhas, hlt⟩
    | port hplace' =>
      cases hplace.symm.trans hplace'
      exact .inl ⟨status, i + 1, rfl, hhas, by omega⟩
    | clear hplace' =>
      cases hplace.symm.trans hplace'
      exact .inr ⟨fun h => (has_and_not.mp h).2 hhas, fun _ _ => Place.noConfusion⟩
    | roused hplace' | idle hplace' | read hplace' | again hplace' | sleep hplace' | asleep hplace' =>
      cases hplace.symm.trans hplace'
  · right
    cases hm with
    | notify p =>
      refine ⟨fun hor => ?_, hcopy⟩
      rcases has_or_bit.mp hor with hh | hh
      · exact hset hh
      · exact hop ⟨p, rfl, hh.symm, fun ⟨status, i, hplace, hhas, _⟩ => hcopy status i hplace hhas⟩
    | flagged | asleep => exact ⟨hset, hcopy⟩
    | read =>
      refine ⟨hset, fun status i heq => ?_⟩
      cases heq
      exact hset
    | @port status i hplace _ =>
      refine ⟨hset, fun status' i' heq => ?_⟩
      cases heq
      exact hcopy status i hplace
    | clear => exact ⟨fun h => hset (has_and_not.mp h).1, fun _ _ => Place.noConfusion⟩
    | _ => exact ⟨hset, fun _ _ => Place.noConfusion⟩

end Hub

/-! ### Endless runs -/

/-- The worker goes on, and each notification is followed by its signal. -/
structure Schedule (ops : Nat → HubOp) : Prop where
  worker : ∀ t, ∃ t', t ≤ t' ∧ ops t' = .worker
  signal : ∀ t port, ops t = .notify port → ∃ t', t < t' ∧ ops t' = .signal

def hubAt (ports : Nat) (ops : Nat → HubOp) : Nat → Hub := state Hub.step { numberOfPorts := ports } ops

variable {ports port t : Nat} {ops : Nat → HubOp}

theorem numberOfPorts_hubAt (t : Nat) : (hubAt ports ops t).numberOfPorts = ports := by
  induction t with
  | zero => rfl
  | succ t ih => exact (Hub.step_moves ..).numberOfPorts.trans ih

theorem started_of_timely (hsched : Schedule ops) (hport : 1 ≤ port ∧ port ≤ ports)
    (h : (hubAt ports ops t).Timely (ops t) port) : ∃ t', t < t' ∧ (hubAt ports ops t').Started (ops t') port := by
  obtain ⟨other, hop, hbit, hearly⟩ := h
  have hpending : Hub.Pending port (hubAt ports ops (t + 1)) := by
    have hstep : hubAt ports ops (t + 1) = (hubAt ports ops t).step (ops t) := rfl
    rw [hstep, hop]
    exact ⟨⟨hport.1, (numberOfPorts_hubAt t).symm ▸ hport.2⟩, has_or_bit.mpr (.inr hbit.symm), hearly⟩
  obtain ⟨u, hu, hsig⟩ := hsched.signal t other hop
  have hlast := lasts (Hub.Pending port) (·.Started · port)
    (fun h op hs => hs.moves (h.step_moves op)) hpending (u - (t + 1))
  rw [show t + 1 + (u - (t + 1)) = u by omega] at hlast
  rcases hlast with hp | ⟨t', h1, -, hg⟩
  · have hready : Hub.Ready port (hubAt ports ops (u + 1)) := by
      have hstep : hubAt ports ops (u + 1) = (hubAt ports ops u).step (ops u) := rfl
      rw [hstep, hsig]
      exact hp.signal (Hub.step_moves ..)
    have hdown : ∀ h op, Hub.Ready port h → ¬h.Started op port → op = .worker →
        Hub.rank port (h.step op) < Hub.rank port h := by
      rintro h op hs hg rfl
      exact hs.rank_worker (h.step_moves _) hg
    have hstay : ∀ h op, Hub.Ready port h → ¬h.Started op port → Hub.rank port (h.step op) ≤ Hub.rank port h := by
      intro h op hs hg
      by_cases hw : op = .worker
      · exact Nat.le_of_lt (hdown h op hs hg hw)
      · exact Nat.le_of_eq (hs.rank_other (h.step_moves op) hw)
    obtain ⟨t', h1, hg⟩ := leads (Hub.Ready port) (·.Started · port) (· = .worker) (Hub.rank port)
      (fun h op hs => hs.moves (h.step_moves op)) hstay hdown hsched.worker hready
    exact ⟨t', by omega, hg⟩
  · exact ⟨t', by omega, hg⟩

theorem timely_of_started (hlate : (hubAt ports ops t).Late port) {t' : Nat} (ht : t ≤ t')
    (h : (hubAt ports ops t').Started (ops t') port) :
    ∃ u, t ≤ u ∧ (hubAt ports ops u).Timely (ops u) port := by
  have hlost : Hub.Lost port (hubAt ports ops t) := .inl hlate
  have hlast := lasts (Hub.Lost port) (·.Timely · port) (fun h op hs => hs.moves (h.step_moves op)) hlost (t' - t)
  rw [show t + (t' - t) = t' by omega] at hlast
  rcases hlast with hl | ⟨u, h1, -, hg⟩
  · exact absurd h (Hub.Lost.not_started hl)
  · exact ⟨u, h1, hg⟩

/-- A notification is followed by a run of its handler exactly if it, or a later one of the port, does not fall between
the start of the handler and the clearing of its bit. -/
theorem notice_handled_iff (hsched : Schedule ops) (hport : 1 ≤ port ∧ port ≤ ports) (hop : ops t = .notify port) :
    (∃ t', t < t' ∧ (hubAt ports ops t').Started (ops t') port) ↔
      ∃ u, t ≤ u ∧ (hubAt ports ops u).Timely (ops u) port := by
  constructor
  · rintro ⟨t', ht, h⟩
    by_cases hlate : (hubAt ports ops t).Late port
    · exact timely_of_started hlate (Nat.le_of_lt ht) h
    · exact ⟨t, Nat.le_refl t, port, hop, rfl, hlate⟩
  · rintro ⟨u, hu, h⟩
    obtain ⟨t', ht, hstart⟩ := started_of_timely hsched hport h
    exact ⟨t', by omega, hstart⟩

def turns (t : Nat) : HubOp := if t = 0 then .notify 1 else if t % 2 = 0 then .signal else .worker

theorem schedule_turns : Schedule turns where
  worker t := ⟨2 * t + 1, by omega, by unfold turns; rw [if_neg (by omega), if_neg (by omega)]⟩
  signal t _ _ := ⟨2 * t + 2, by omega, by unfold turns; rw [if_neg (by omega), if_pos (by omega)]⟩

theorem notice_handled_turns : ∃ t', 0 < t' ∧ (hubAt 4 turns t').Started (turns t') 1 :=
  (notice_handled_iff schedule_turns (by decide) rfl).mpr
    ⟨0, Nat.le_refl 0, 1, rfl, rfl, Hub.not_late_of fun _ _ => Place.noConfusion⟩

/-- Port 1 is notified again when its handler has been started and the worker has not cleared its bit. -/
def again : Nat → HubOp
  | 0 => .notify 1
  | 1 => .signal
  | 4 => .notify 1
  | 5 => .signal
  | _ => .worker

theorem schedule_again : Schedule again where
  worker t := ⟨t + 6, by omega, rfl⟩
  signal t port h := by
    refine ⟨5, ?_, rfl⟩
    by_contra hge
    obtain ⟨k, rfl⟩ : ∃ k, t = k + 5 := ⟨t - 5, by omega⟩
    rcases k with _ | k <;> cases h

/-- The second notification is cleared with the first one, and the handler does not start for it. -/
theorem notice_lost : Schedule again ∧ again 4 = .notify 1 ∧
    ¬∃ t', 4 < t' ∧ (hubAt 4 again t').Started (again t') 1 := by
  refine ⟨schedule_again, rfl, ?_⟩
  rintro ⟨t', ht, h⟩
  have hlate : (hubAt 4 again 4).Late 1 := ⟨bit 1, 2, by decide, by decide, by decide⟩
  obtain ⟨u, hu, other, hop, -, hearly⟩ := timely_of_started hlate (Nat.le_of_lt ht) h
  rcases Nat.eq_or_lt_of_le hu with rfl | hlt
  · exact hearly hlate
  · obtain ⟨k, rfl⟩ : ∃ k, u = k + 5 := ⟨u - 5, by omega⟩
    rcases k with _ | k <;> cases hop

end Novino.Usb
