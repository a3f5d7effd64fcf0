import Mathlib.Data.List.Basic
import Novino.Lib.Laps
import Novino.Lib.Steps
import Novino.Usb.Commands

/-! What the controller reads from the command ring. The places are counted on over the laps: place `p` is `p % 129` in
    lap `p / 129`. -/

namespace Novino.Usb

open Steps Laps

def cycleBit (b : Bool) : BitVec 32 := if b then 1 else 0

theorem cycleBit_not (b : Bool) : cycleBit b ^^^ 1 = cycleBit !b := by cases b <;> decide

theorem Trb.cycle_or (trb : Trb) {flags : BitVec 32} (h : flags &&& TRB_CYCLE = 0) (b : Bool) :
    Trb.cycle { trb with flags := flags ||| cycleBit b } = b := by
  unfold Trb.cycle
  rw [BitVec.and_or_distrib_right, h]
  cases b <;> decide

theorem cycle_clear (flags : BitVec 32) : flags &&& ~~~TRB_CYCLE &&& TRB_CYCLE = 0 := by
  rw [BitVec.and_assoc]
  exact BitVec.and_zero

theorem Trb.cycle_unlink (trb : Trb) :
    Trb.cycle { trb with flags := trb.flags &&& ~~~(TRB_CHAIN ||| TRB_CYCLE) } = false := by
  unfold Trb.cycle
  rw [BitVec.and_assoc]
  exact decide_eq_false (not_not_intro BitVec.and_zero)

theorem ent_unlink (flags : BitVec 32) : flags &&& ~~~(TRB_CHAIN ||| TRB_CYCLE) &&& TRB_ENT = flags &&& TRB_ENT := by
  rw [BitVec.and_assoc]
  rfl

theorem ent_or (flags : BitVec 32) {b : BitVec 32} (h : b &&& TRB_ENT = 0) :
    (flags ||| b) &&& TRB_ENT = flags &&& TRB_ENT := by
  rw [BitVec.and_or_distrib_right, h]
  exact BitVec.or_zero

theorem Trb.cycle_chain (trb : Trb) : Trb.cycle { trb with flags := trb.flags ||| TRB_CHAIN } = trb.cycle := by
  unfold Trb.cycle
  have hchain : TRB_CHAIN &&& TRB_CYCLE = 0#32 := by decide
  rw [BitVec.and_or_distrib_right, hchain, BitVec.or_zero]

theorem Trb.command_or (address : BitVec 64) (status flags : BitVec 32) (b : Bool) :
    Trb.command ⟨address, status, flags &&& ~~~TRB_CYCLE ||| cycleBit b⟩ = Trb.command ⟨address, status, flags⟩ := by
  unfold Trb.command
  have hbit : cycleBit b &&& ~~~TRB_CYCLE = 0#32 := by cases b <;> decide
  rw [BitVec.and_or_distrib_right, hbit, BitVec.or_zero, BitVec.and_assoc, BitVec.and_self]

namespace Commands

variable {s : Commands} {w p : Nat} {trb : Nat → Trb} {t entry : Trb}

def places : Nat := XHCI_MAX_COMMANDS + 1

def before (p : Nat) : Nat := p / places * XHCI_MAX_COMMANDS + p % places

theorem next_link (h : p % places = XHCI_MAX_COMMANDS) : (p + 1) % places = 0 := by
  unfold places XHCI_MAX_COMMANDS at *
  omega

theorem next_entry (h : p % places ≠ XHCI_MAX_COMMANDS) : (p + 1) % places = p % places + 1 := by
  unfold places XHCI_MAX_COMMANDS at *
  omega

theorem before_link (h : p % places = XHCI_MAX_COMMANDS) : before (p + 1) = before p := by
  unfold before places XHCI_MAX_COMMANDS at *
  omega

theorem before_entry (h : p % places ≠ XHCI_MAX_COMMANDS) : before (p + 1) = before p + 1 := by
  unfold before places XHCI_MAX_COMMANDS at *
  omega

theorem before_le {q : Nat} (h : q ≤ p) : before q ≤ before p := by
  unfold before places XHCI_MAX_COMMANDS
  omega

theorem mark_link (h : p % places = XHCI_MAX_COMMANDS) : mark places (p + 1) = !mark places p := by
  apply mark_succ_of_dvd
  unfold places XHCI_MAX_COMMANDS at *
  omega

theorem mark_entry (h : p % places ≠ XHCI_MAX_COMMANDS) : mark places (p + 1) = mark places p := by
  apply mark_succ_of_not_dvd
  unfold places XHCI_MAX_COMMANDS at *
  omega

def cycles (trb : Nat → Trb) (i : Nat) : Bool := (trb i).cycle

theorem cycles_update (trb : Nat → Trb) (i : Nat) (t : Trb) :
    cycles (Function.update trb i t) = Function.update (cycles trb) i t.cycle :=
  funext fun j => Function.apply_update (fun _ => Trb.cycle) trb i t j

theorem upto_keep {i : Nat} (h : Upto places (cycles trb) p) (ht : t.cycle = cycles trb i) :
    Upto places (cycles (Function.update trb i t)) p := by
  rw [cycles_update, ht, Function.update_eq_self]
  exact h

theorem upto_write (h : Upto places (cycles trb) p) (ht : t.cycle = mark places p) :
    Upto places (cycles (Function.update trb (p % places) t)) (p + 1) := by
  rw [cycles_update, ht]
  exact h.write (Nat.succ_pos _)

/-! ### What the ring holds -/

/-- The ring holds the entries up to the place `p` that the driver has not begun to write over. -/
def Held (trb : Nat → Trb) (submitted : List Trb) (written p : Nat) : Prop :=
  ∀ q < p, written ≤ q + places → q % places ≠ XHCI_MAX_COMMANDS →
    (submitted.map Trb.command)[before q]? = some (trb (q % places)).command

def Linked (trb : Nat → Trb) (phys : BitVec 64) : Prop :=
  (trb XHCI_MAX_COMMANDS).address = phys ∧ (trb XHCI_MAX_COMMANDS).flags &&& TRB_ENT = TRB_ENT

section

variable {trb : Nat → Trb} {submitted : List Trb} {written : Nat} {phys : BitVec 64}

theorem Held.submit (h : Held trb submitted written p) (entry : Trb) :
    Held trb (submitted ++ [entry]) (written + 1) p := by
  intro q hq hroom hne
  have hheld := h q hq (by omega) hne
  rw [List.map_append, List.getElem?_append_left (List.getElem?_eq_some_iff.mp hheld).1]
  exact hheld

theorem Held.keep (h : Held trb submitted (w + 1) w) (t : Trb) :
    Held (Function.update trb (w % places) t) submitted (w + 1) w := by
  intro q hq hroom hne
  have hother : q % places ≠ w % places := (mod_ne hq hroom).symm
  rw [Function.update_of_ne hother]
  exact h q hq hroom hne

theorem Held.write (h : Held trb submitted (w + 1) w) {entry : Trb} (hwritten : w + 1 ≤ written)
    (hlast : (submitted.map Trb.command)[before w]? = some entry.command) :
    Held (Function.update trb (w % places) entry) submitted written (w + 1) := by
  intro q hq hroom hne
  rcases Nat.lt_succ_iff_lt_or_eq.mp hq with hlt | rfl
  · exact h.keep entry q hlt (hwritten.trans hroom) hne
  · rw [Function.update_self]
    exact hlast

theorem Held.link (h : Held trb submitted written p) (hend : w % places = XHCI_MAX_COMMANDS) (hw : w ≤ p) {p' : Nat}
    (hp : p' ≤ w + 1) (t : Trb) : Held (Function.update trb XHCI_MAX_COMMANDS t) submitted written p' := by
  intro q hq hroom hne
  have hother : q ≠ w := fun he => hne (he ▸ hend)
  rw [Function.update_of_ne hne]
  exact h q (by omega) hroom hne

theorem Linked.keep (h : Linked trb phys) {i : Nat} (hi : i ≠ XHCI_MAX_COMMANDS) (t : Trb) :
    Linked (Function.update trb i t) phys := by
  unfold Linked
  rw [Function.update_of_ne hi.symm]
  exact h

theorem Linked.link (h : Linked trb phys) {t : Trb}
    (haddr : t.address = (trb XHCI_MAX_COMMANDS).address)
    (hent : t.flags &&& TRB_ENT = (trb XHCI_MAX_COMMANDS).flags &&& TRB_ENT) :
    Linked (Function.update trb XHCI_MAX_COMMANDS t) phys := by
  unfold Linked
  rw [Function.update_self, haddr, hent]
  exact h

end

/-- An entry is being submitted at the place `w`: it is the last of `submitted`, and its flags have the cycle of the
    lap. -/
structure Pending (submitted : List Trb) (w : Nat) (entry : Trb) : Prop where
  inner : w % places ≠ XHCI_MAX_COMMANDS
  last : (submitted.map Trb.command)[before w]? = some entry.command
  length : submitted.length = before w + 1
  cycle : entry.cycle = mark places w

/-- The driver is at the place `w`, and the ring is written up to the place `p`. The link counts as written from the
store on that gives it its new cycle. -/
def At (s : Commands) (w p : Nat) : Prop :=
  match s.stage with
  | .idle => s.written = w ∧ p = w ∧ w % places ≠ XHCI_MAX_COMMANDS ∧ s.submitted.length = before w
  | .address entry => s.written = w + 1 ∧ p = w ∧ Pending s.submitted w entry
  | .status entry =>
    s.written = w + 1 ∧ p = w ∧ Pending s.submitted w entry ∧ (s.trb s.index).address = entry.address
  | .flags entry =>
    s.written = w + 1 ∧ p = w ∧ Pending s.submitted w entry ∧ (s.trb s.index).address = entry.address ∧
      (s.trb s.index).status = entry.status
  | .unlink _ => s.written = w + 1 ∧ p = w ∧ w % places = XHCI_MAX_COMMANDS ∧ s.submitted.length = before w
  | .relink _ =>
    s.written = w + 1 ∧ p = (if mark places w then w else w + 1) ∧ w % places = XHCI_MAX_COMMANDS ∧
      s.submitted.length = before w ∧ (s.trb XHCI_MAX_COMMANDS).flags &&& TRB_CYCLE = 0
  | .chain _ => s.written = w + 1 ∧ p = w + 1 ∧ w % places = XHCI_MAX_COMMANDS ∧ s.submitted.length = before w

structure Inv (s : Commands) (w p : Nat) : Prop where
  ntrb : s.ntrb = XHCI_MAX_COMMANDS
  driver : s.At w p
  index : s.index = w % places
  cycle : s.cycle = cycleBit (mark places w)
  upto : Upto places (cycles s.trb) p
  held : Held s.trb s.submitted s.written p
  link : Linked s.trb s.phys
  behind : s.passed ≤ p
  near : s.written ≤ s.passed + places
  dequeue : s.dequeue = s.passed % places
  ccs : s.ccs = mark places s.passed
  read : s.read.map Trb.command = (s.submitted.map Trb.command).take (before s.passed)

theorem At.le (h : s.At w p) : p ≤ s.written := by
  unfold At at h
  split at h <;> try omega
  split at h <;> omega

section
variable (hs : Inv s w p)
include hs

theorem Inv.cycle_iff : (s.trb s.dequeue).cycle = s.ccs ↔ s.passed < p := by
  rw [hs.dequeue, hs.ccs]
  exact hs.upto.mark_iff (Nat.succ_pos _) hs.behind (hs.driver.le.trans hs.near)

theorem Inv.fetch_idle (h : s.passed = p) : s.fetch = s := by
  unfold Commands.fetch
  exact if_pos (mt hs.cycle_iff.mp (by omega))

theorem Inv.fetch_link (h : s.passed < p) (hend : s.passed % places = XHCI_MAX_COMMANDS) :
    Inv s.fetch w p ∧ s.fetch.passed = s.passed + 1 := by
  have hplace : s.dequeue = XHCI_MAX_COMMANDS := hs.dequeue.trans hend
  have hfetch : s.fetch = { s with dequeue := 0, ccs := !s.ccs, passed := s.passed + 1 } := by
    unfold Commands.fetch
    rw [if_neg (not_not_intro (hs.cycle_iff.mpr h)), if_pos (hplace.trans hs.ntrb.symm), hplace, hs.link.1, hs.link.2,
      BitVec.sub_self]
    rfl
  rw [hfetch]
  refine ⟨⟨hs.ntrb, hs.driver, hs.index, hs.cycle, hs.upto, hs.held, hs.link, h, ?_, ?_, ?_, ?_⟩, rfl⟩
  · exact hs.near.trans (by simp)
  · exact (next_link hend).symm
  · rw [mark_link hend, hs.ccs]
  · rw [before_link hend]
    exact hs.read

theorem Inv.fetch_entry (h : s.passed < p) (hin : s.passed % places ≠ XHCI_MAX_COMMANDS) :
    Inv s.fetch w p ∧ s.fetch.passed = s.passed + 1 := by
  have hplace : s.dequeue ≠ s.ntrb := fun he => hin (hs.dequeue.symm.trans (he.trans hs.ntrb))
  have hfetch : s.fetch =
      { s with dequeue := s.dequeue + 1, read := s.read ++ [s.trb s.dequeue], passed := s.passed + 1 } := by
    unfold Commands.fetch
    rw [if_neg (not_not_intro (hs.cycle_iff.mpr h)), if_neg hplace]
  have hentry := hs.held s.passed h hs.near hin
  rw [hfetch]
  refine ⟨⟨hs.ntrb, hs.driver, hs.index, hs.cycle, hs.upto, hs.held, hs.link, h, ?_, ?_, ?_, ?_⟩, rfl⟩
  · exact hs.near.trans (by simp)
  · rw [next_entry hin, ← hs.dequeue]
  · rw [mark_entry hin, hs.ccs]
  · rw [before_entry hin, List.take_add_one, hentry, List.map_append, hs.read, hs.dequeue]
    rfl

theorem Inv.fetch (h : s.passed < p) : Inv s.fetch w p ∧ s.fetch.passed = s.passed + 1 := by
  by_cases hend : s.passed % places = XHCI_MAX_COMMANDS
  · exact hs.fetch_link h hend
  · exact hs.fetch_entry h hend

/-! ### The driver takes a step -/

theorem Inv.submit (hidle : s.stage = .idle) (addr : BitVec 64) (status flags : BitVec 32)
    (hnear : s.written + 1 ≤ s.passed + places) : Inv (s.step (.submit addr status flags)) w p := by
  have hdriver := hs.driver
  rw [At, hidle] at hdriver
  obtain ⟨hw, hp, hin, hlen⟩ := hdriver
  have hstep : s.step (.submit addr status flags) =
      { s with
        stage := .address ⟨addr, status, flags &&& ~~~TRB_CYCLE ||| s.cycle⟩
        submitted := s.submitted ++ [⟨addr, status, flags⟩]
        written := s.written + 1 } := by
    simp only [step, hidle]
  have hmap : (s.submitted.map Trb.command).length = before w := by rw [List.length_map, hlen]
  rw [hstep]
  refine ⟨hs.ntrb, ⟨?_, hp, hin, ?_, ?_, ?_⟩, hs.index, hs.cycle, hs.upto, hs.held.submit _, hs.link, hs.behind, hnear,
    hs.dequeue, hs.ccs, ?_⟩
  · rw [hw]
  · rw [List.map_append, ← hmap, hs.cycle, Trb.command_or]
    exact List.getElem?_concat_length
  · rw [List.length_append, hlen]
    rfl
  · rw [hs.cycle]
    exact Trb.cycle_or ⟨addr, status, flags⟩ (cycle_clear flags) _
  · rw [List.map_append, List.take_append_of_le_length]
    · exact hs.read
    · rw [hmap, ← hp]
      exact before_le hs.behind

end

theorem Inv.put_entry (hs : Inv s w w) (hw : s.written = w + 1) (hin : w % places ≠ XHCI_MAX_COMMANDS)
    (ht : t.cycle = cycles s.trb (w % places)) {stage : Stage}
    (hat : At { s with trb := Function.update s.trb (w % places) t, stage := stage } w w) :
    Inv { s with trb := Function.update s.trb (w % places) t, stage := stage } w w := by
  have hheld := hs.held
  rw [hw] at hheld
  exact ⟨hs.ntrb, hat, hs.index, hs.cycle, upto_keep hs.upto ht, hw ▸ hheld.keep t, hs.link.keep hin t, hs.behind,
    hs.near, hs.dequeue, hs.ccs, hs.read⟩

section
variable (hs : Inv s w p) {entry : Trb}
include hs

theorem Inv.address (h : s.stage = .address entry) : Inv s.store w p := by
  have hdriver := hs.driver
  rw [At, h] at hdriver
  obtain ⟨hw, rfl, hpending⟩ := hdriver
  have hstore : s.store = { s with
      trb := Function.update s.trb (p % places) { s.trb (p % places) with address := entry.address }
      stage := .status entry } := by
    simp only [Commands.store, h, put, hs.index]
  rw [hstore]
  refine hs.put_entry hw hpending.inner ?_ ?_
  · rfl
  · refine ⟨hw, rfl, hpending, ?_⟩
    simp only [hs.index, Function.update_self]

theorem Inv.status (h : s.stage = .status entry) : Inv s.store w p := by
  have hdriver := hs.driver
  rw [At, h] at hdriver
  obtain ⟨hw, rfl, hpending, haddr⟩ := hdriver
  have hstore : s.store = { s with
      trb := Function.update s.trb (p % places) { s.trb (p % places) with status := entry.status }
      stage := .flags entry } := by
    simp only [Commands.store, h, put, hs.index]
  rw [hs.index] at haddr
  rw [hstore]
  refine hs.put_entry hw hpending.inner ?_ ?_
  · rfl
  · refine ⟨hw, rfl, hpending, ?_, ?_⟩
    · simp only [hs.index, Function.update_self, haddr]
    · simp only [hs.index, Function.update_self]

theorem Inv.flags (h : s.stage = .flags entry)
    (hnear : s.store.written ≤ s.passed + places) : Inv s.store (w + 1) (w + 1) := by
  have hdriver := hs.driver
  rw [At, h] at hdriver
  obtain ⟨hw, rfl, hpending, haddr, hstatus⟩ := hdriver
  have hentry : (⟨(s.trb s.index).address, (s.trb s.index).status, entry.flags⟩ : Trb) = entry := by
    rw [haddr, hstatus]
  have hstore : s.store = { s with
      trb := Function.update s.trb (p % places) entry
      index := p % places + 1
      stage := if (p + 1) % places = XHCI_MAX_COMMANDS then .unlink entry else .idle
      written := if (p + 1) % places = XHCI_MAX_COMMANDS then p + 1 + 1 else p + 1 } := by
    rw [hs.index] at hentry
    simp only [Commands.store, h, put, hs.ntrb, hs.index, hw, hentry, next_entry hpending.inner]
    split <;> rfl
  have hheld := hs.held
  rw [hw] at hheld
  have hwritten : p + 1 ≤ if (p + 1) % places = XHCI_MAX_COMMANDS then p + 1 + 1 else p + 1 := by split <;> omega
  rw [hstore] at hnear ⊢
  refine ⟨hs.ntrb, ?_, (next_entry hpending.inner).symm, ?_, upto_write hs.upto hpending.cycle,
    hheld.write hwritten hpending.last, hs.link.keep hpending.inner entry,
    hs.behind.trans (Nat.le_succ p), hnear, hs.dequeue, hs.ccs, hs.read⟩
  · have hlen : s.submitted.length = before (p + 1) := hpending.length.trans (before_entry hpending.inner).symm
    by_cases hend : (p + 1) % places = XHCI_MAX_COMMANDS
    · simp only [At, if_pos hend]
      exact ⟨trivial, trivial, hend, hlen⟩
    · simp only [At, if_neg hend]
      exact ⟨trivial, trivial, hend, hlen⟩
  · rw [mark_entry hpending.inner]
    exact hs.cycle

theorem Inv.put_link (hw : w ≤ p) (hend : w % places = XHCI_MAX_COMMANDS) {t : Trb} {p' : Nat}
    (hp : p ≤ p') (hp' : p' ≤ w + 1) (hupto : Upto places (cycles (Function.update s.trb XHCI_MAX_COMMANDS t)) p')
    (haddr : t.address = (s.trb XHCI_MAX_COMMANDS).address)
    (hent : t.flags &&& TRB_ENT = (s.trb XHCI_MAX_COMMANDS).flags &&& TRB_ENT) {stage : Stage}
    (hat : At { s with trb := Function.update s.trb XHCI_MAX_COMMANDS t, stage := stage } w p') :
    Inv { s with trb := Function.update s.trb XHCI_MAX_COMMANDS t, stage := stage } w p' := by
  exact ⟨hs.ntrb, hat, hs.index, hs.cycle, hupto, hs.held.link hend hw hp' t, hs.link.link haddr hent,
    hs.behind.trans hp, hs.near, hs.dequeue, hs.ccs, hs.read⟩

theorem Inv.unlink (h : s.stage = .unlink entry) :
    Inv s.store w (if mark places w then w else w + 1) := by
  have hdriver := hs.driver
  rw [At, h] at hdriver
  obtain ⟨hw, rfl, hend, hlen⟩ := hdriver
  have hstore : s.store = { s with
      trb := Function.update s.trb XHCI_MAX_COMMANDS { s.trb XHCI_MAX_COMMANDS with
        flags := (s.trb XHCI_MAX_COMMANDS).flags &&& ~~~(TRB_CHAIN ||| TRB_CYCLE) }
      stage := .relink entry } := by
    simp only [Commands.store, h, put, hs.ntrb]
  have hclear := (s.trb XHCI_MAX_COMMANDS).cycle_unlink
  rw [hstore]
  refine hs.put_link le_rfl hend (by split <;> omega) (by split <;> omega) ?_ ?_ (ent_unlink _) ?_
  · cases hmark : mark places p with
    | true =>
      -- the bit is not yet that of the lap, so clearing it changes nothing
      refine upto_keep hs.upto (hclear.trans ?_)
      have hbit := hs.upto p le_rfl (by simp [places])
      rw [hend, hmark] at hbit
      exact (Bool.eq_false_of_not_eq_true hbit).symm
    | false =>
      have hwrite := upto_write hs.upto (hclear.trans hmark.symm)
      rw [hend] at hwrite
      exact hwrite
  · rfl
  · refine ⟨hw, rfl, hend, hlen, ?_⟩
    simp only [Function.update_self]
    exact (BitVec.and_assoc ..).trans BitVec.and_zero

theorem Inv.relink (h : s.stage = .relink entry) : Inv s.store w (w + 1) := by
  have hdriver := hs.driver
  rw [At, h] at hdriver
  obtain ⟨hw, hp, hend, hlen, hclear⟩ := hdriver
  have hstore : s.store = { s with
      trb := Function.update s.trb XHCI_MAX_COMMANDS { s.trb XHCI_MAX_COMMANDS with
        flags := (s.trb XHCI_MAX_COMMANDS).flags ||| cycleBit (mark places w) }
      stage := .chain entry } := by
    simp only [Commands.store, h, put, hs.ntrb, hs.cycle]
  have hcycle := (s.trb XHCI_MAX_COMMANDS).cycle_or hclear (mark places w)
  have hent : cycleBit (mark places w) &&& TRB_ENT = 0 := by cases mark places w <;> decide
  rw [hstore]
  refine hs.put_link (hp ▸ by split <;> omega) hend (hp ▸ by split <;> omega) le_rfl ?_ ?_ (ent_or _ hent) ?_
  · cases hmark : mark places w with
    | true =>
      rw [hmark, if_pos rfl] at hp
      subst hp
      have hwrite := upto_write hs.upto hcycle
      rw [hend, hmark] at hwrite
      exact hwrite
    | false =>
      -- the link has its bit since it was cleared
      rw [hmark, if_neg Bool.false_ne_true] at hp
      subst hp
      rw [hmark] at hcycle
      refine upto_keep hs.upto (hcycle.trans ?_)
      exact (decide_eq_false (not_not_intro hclear)).symm
  · rfl
  · exact ⟨hw, rfl, hend, hlen⟩

end

theorem Inv.wrap (hs : Inv s w (w + 1)) (h : s.stage = .chain entry) :
    Inv { s with cycle := s.cycle ^^^ 1, index := 0, stage := .idle } (w + 1) (w + 1) := by
  have hdriver := hs.driver
  rw [At, h] at hdriver
  obtain ⟨hw, -, hend, hlen⟩ := hdriver
  refine ⟨hs.ntrb, ⟨hw, rfl, ?_, hlen.trans (before_link hend).symm⟩, (next_link hend).symm, ?_, hs.upto, hs.held,
    hs.link, hs.behind, hs.near, hs.dequeue, hs.ccs, hs.read⟩
  · rw [next_link hend]
    decide
  · rw [mark_link hend, ← cycleBit_not, hs.cycle]

theorem Inv.chain (hs : Inv s w p) (h : s.stage = .chain entry) : Inv s.store (w + 1) (w + 1) := by
  have hdriver := hs.driver
  rw [At, h] at hdriver
  obtain ⟨hw, rfl, hend, hlen⟩ := hdriver
  by_cases hchain : entry.flags &&& TRB_CHAIN ≠ 0
  · have hput : Inv { s with trb := Function.update s.trb XHCI_MAX_COMMANDS { s.trb XHCI_MAX_COMMANDS with
        flags := (s.trb XHCI_MAX_COMMANDS).flags ||| TRB_CHAIN }, stage := .chain entry } w (w + 1) := by
      refine hs.put_link (Nat.le_succ w) hend le_rfl le_rfl (upto_keep hs.upto (Trb.cycle_chain _)) ?_
        (ent_or _ (by decide)) ?_
      · rfl
      · exact ⟨hw, rfl, hend, hlen⟩
    have hstore : s.store = { s with
        trb := Function.update s.trb XHCI_MAX_COMMANDS { s.trb XHCI_MAX_COMMANDS with
          flags := (s.trb XHCI_MAX_COMMANDS).flags ||| TRB_CHAIN }
        cycle := s.cycle ^^^ 1, index := 0, stage := .idle } := by
      simp only [Commands.store, h, put, hs.ntrb, if_pos hchain]
    rw [hstore]
    exact hput.wrap rfl
  · have hstore : s.store = { s with cycle := s.cycle ^^^ 1, index := 0, stage := .idle } := by
      simp only [Commands.store, h, if_neg hchain]
    rw [hstore]
    exact hs.wrap h

theorem store_ntrb (s : Commands) : s.store.ntrb = s.ntrb ∧ s.store.passed = s.passed := by
  unfold Commands.store
  cases s.stage with
  | flags entry =>
    dsimp only
    split <;> exact ⟨rfl, rfl⟩
  | chain entry =>
    dsimp only
    split <;> exact ⟨rfl, rfl⟩
  | _ => exact ⟨rfl, rfl⟩

theorem Inv.step (hs : Inv s w p) (a : CommandOp) (hnear : (s.step a).Near) : ∃ w p, Inv (s.step a) w p := by
  cases a with
  | submit addr status flags =>
    by_cases hidle : s.stage = .idle
    · refine ⟨w, p, hs.submit hidle addr status flags ?_⟩
      simp only [Near, Commands.step, hidle, hs.ntrb] at hnear
      exact hnear
    · have hstep : s.step (.submit addr status flags) = s := by
        unfold Commands.step
        cases hstage : s.stage with
        | idle => exact absurd hstage hidle
        | _ => rfl
      rw [hstep]
      exact ⟨w, p, hs⟩
  | store =>
    have hwritten : s.store.written ≤ s.passed + places := by
      have hnear : s.store.written ≤ s.store.passed + (s.store.ntrb + 1) := hnear
      rw [(store_ntrb s).1, (store_ntrb s).2, hs.ntrb] at hnear
      exact hnear
    show ∃ w p, Inv s.store w p
    cases hstage : s.stage with
    | idle =>
      have hstore : s.store = s := by simp only [Commands.store, hstage]
      rw [hstore]
      exact ⟨w, p, hs⟩
    | address entry => exact ⟨w, p, hs.address hstage⟩
    | status entry => exact ⟨w, p, hs.status hstage⟩
    | flags entry => exact ⟨w + 1, w + 1, hs.flags hstage hwritten⟩
    | unlink entry => exact ⟨w, _, hs.unlink hstage⟩
    | relink entry => exact ⟨w, w + 1, hs.relink hstage⟩
    | chain entry => exact ⟨w + 1, w + 1, hs.chain hstage⟩
  | fetch =>
    rcases Nat.lt_or_eq_of_le hs.behind with hlt | heq
    · exact ⟨w, p, (hs.fetch hlt).1⟩
    · have hstep : s.step .fetch = s := hs.fetch_idle heq
      rw [hstep]
      exact ⟨w, p, hs⟩

theorem inv_create (phys : BitVec 64) : Inv (create phys) 0 0 where
  ntrb := rfl
  driver := ⟨rfl, rfl, by decide, rfl⟩
  index := rfl
  cycle := rfl
  upto := by
    intro q _ hq
    have hq : q < places := by omega
    rw [Nat.mod_eq_of_lt hq, show mark places q = true from by simp [mark, Nat.div_eq_of_lt hq]]
    by_cases hlink : q = XHCI_MAX_COMMANDS
    · have hflags : (TRB_TYPE_LINK <<< 10 ||| TRB_ENT) &&& TRB_CYCLE = 0 := by decide
      simp [cycles, create, hlink, Function.update_self, Trb.cycle, hflags]
    · simp only [cycles, create, Function.update_of_ne hlink]
      decide
  held := fun q hq => absurd hq (Nat.not_lt_zero q)
  link := ⟨rfl, show (TRB_TYPE_LINK <<< 10 ||| TRB_ENT) &&& TRB_ENT = TRB_ENT by decide⟩
  behind := le_rfl
  near := Nat.zero_le _
  dequeue := rfl
  ccs := (mark_zero places).symm
  read := List.take_nil.symm

theorem fetch_submitted (s : Commands) : s.fetch.submitted = s.submitted := by
  unfold Commands.fetch
  dsimp only
  split
  · rfl
  · split <;> rfl

theorem Inv.reach {n : Nat} (hs : Inv s w p) (h : s.passed + n = p) :
    Inv (Commands.fetch^[n] s) w p ∧ (Commands.fetch^[n] s).passed = p ∧
      (Commands.fetch^[n] s).submitted = s.submitted := by
  induction n generalizing s with
  | zero => exact ⟨hs, h, rfl⟩
  | succ n ih =>
    obtain ⟨hfetch, hpassed⟩ := hs.fetch (by omega)
    obtain ⟨hinv, hend, hsame⟩ := ih hfetch (by omega)
    exact ⟨hinv, hend, hsame.trans (fetch_submitted s)⟩

theorem Inv.drain (hs : Inv s w p) (hidle : s.stage = .idle) :
    ∃ n, ∀ m, n ≤ m → (Commands.fetch^[m] s).read.map Trb.command = s.submitted.map Trb.command := by
  obtain ⟨n, hn⟩ := Nat.exists_eq_add_of_le hs.behind
  obtain ⟨hinv, hpassed, hsame⟩ := hs.reach hn.symm
  refine ⟨n, fun m hm => ?_⟩
  obtain ⟨k, rfl⟩ := Nat.exists_eq_add_of_le hm
  rw [Nat.add_comm, Function.iterate_add_apply, Function.iterate_fixed (hinv.fetch_idle hpassed), hinv.read, hsame,
    hpassed]
  have hdriver := hs.driver
  rw [At, hidle] at hdriver
  obtain ⟨-, rfl, -, hlen⟩ := hdriver
  rw [← hlen, ← List.length_map, List.take_length]

theorem Inv.good (hs : Inv s w p) : s.read.map Trb.command <+: s.submitted.map Trb.command := by
  rw [hs.read]
  exact List.take_prefix ..

/-- The controller reads the submitted entries in order and each once, at every point of every run, and all of them once
the driver is at rest. -/
theorem commands_read (phys : BitVec 64) (ops : List CommandOp)
    (h : Along Commands.step (fun s op => (s.step op).Near) (create phys) ops) :
    let s := ops.foldl Commands.step (create phys)
    s.read.map Trb.command <+: s.submitted.map Trb.command ∧
      (s.stage = .idle → ∃ n, ∀ m, n ≤ m →
        (Commands.fetch^[m] s).read.map Trb.command = s.submitted.map Trb.command) := by
  have keep : ∀ s op, (∃ w p, Inv s w p) → (s.step op).Near → ∃ w p, Inv (s.step op) w p := by
    rintro s op ⟨w, p, hs⟩ hnear
    exact hs.step op hnear
  obtain ⟨w, p, hs⟩ := Along.invariant keep ⟨0, 0, inv_create phys⟩ h
  exact ⟨hs.good, hs.drain⟩

end Commands

/-- One command more than the ring has places, each of which is read; the last one comes behind the link. -/
def rounds : List CommandOp :=
  (List.range 129).flatMap fun i => [.submit i 2 4, .store, .store, .store, .store, .store, .store, .fetch, .fetch]

theorem commands_read_wrapped :
    let s := rounds.foldl Commands.step (Commands.create 4096)
    s.passed = 130 ∧ ∃ n, ∀ m, n ≤ m → (Commands.fetch^[m] s).read.map Trb.command = s.submitted.map Trb.command := by
  have h : Along Commands.step (fun s op => (s.step op).Near) (Commands.create 4096) rounds ∧
      (rounds.foldl Commands.step (Commands.create 4096)).passed = 130 ∧
      (rounds.foldl Commands.step (Commands.create 4096)).stage = .idle := by decide +kernel
  exact ⟨h.2.1, (Commands.commands_read 4096 rounds h.1).2 h.2.2⟩

end Novino.Usb
