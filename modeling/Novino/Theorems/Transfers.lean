import Mathlib.Algebra.Group.Nat.Defs
import Novino.Lib.Tiles
import Novino.Usb.Commands

/-! The entries that a transfer queues: they tile the bytes of the transfer. -/

namespace Novino.Usb

def Trb.length (trb : Trb) : Nat := (trb.status &&& 0x1FFFF).toNat

structure Normals (start stop : Nat) (entries : List Trb) : Prop where
  tiles : Tiles (·.address.toNat) Trb.length start entries stop
  normal : ∀ trb ∈ entries, trb.type = TRB_TYPE_NORMAL
  within : ∀ trb ∈ entries, 0 < trb.length ∧
    trb.address.toNat / 0x10000 = (trb.address.toNat + trb.length - 1) / 0x10000
  next : ∃ init last, entries = init ++ [last] ∧ (∀ trb ∈ init, trb.flags &&& TRB_ENT ≠ 0) ∧ last.flags &&& TRB_ENT = 0

variable {mps stop start curr : Nat} {s ring : Commands} {phys : BitVec 64} {size : BitVec 32}

theorem length_normalEntry (hlen : curr - start ≤ 0x10000) :
    (normalEntry mps stop start curr).length = curr - start := by
  have hlt : curr - start < 2 ^ 17 := by omega
  have hmask : (0x1FFFF : BitVec 32) = BitVec.ofNat 32 (2 ^ 17 - 1) := rfl
  rw [Trb.length, normalEntry, hmask, ← BitVec.ofNat_and, Nat.and_two_pow_sub_one_eq_mod, Nat.shiftLeft_eq,
    Nat.mul_comm, ← Nat.two_pow_add_eq_or_of_lt hlt, Nat.mul_add_mod, Nat.mod_eq_of_lt hlt, BitVec.toNat_ofNat]
  exact Nat.mod_eq_of_lt (by omega)

theorem normalEntry_flags : (normalEntry mps stop start curr).type = TRB_TYPE_NORMAL ∧
    ((normalEntry mps stop start curr).flags &&& TRB_ENT ≠ 0 ↔ curr < stop) := by
  unfold normalEntry Trb.type
  by_cases h : curr < stop <;> simp [h] <;> decide

theorem normals_cons {rest : List Trb} (hlt : start < curr) (hsame : start / 0x10000 = (curr - 1) / 0x10000)
    (hstop : stop < 2 ^ 64) (hrest : curr = stop ∧ rest = [] ∨ curr < stop ∧ Normals curr stop rest) :
    Normals start stop (normalEntry mps stop start curr :: rest) := by
  have haddr : (normalEntry mps stop start curr).address.toNat = start :=
    (BitVec.toNat_ofNat _ _).trans (Nat.mod_eq_of_lt (by omega))
  have hlen : (normalEntry mps stop start curr).length = curr - start := length_normalEntry (by omega)
  obtain ⟨htype, hent⟩ := @normalEntry_flags mps stop start curr
  generalize normalEntry mps stop start curr = trb at *
  have hend : trb.address.toNat + trb.length = curr := by omega
  have hwithin : 0 < trb.length ∧ trb.address.toNat / 0x10000 = (trb.address.toNat + trb.length - 1) / 0x10000 := by
    rw [hend, haddr]
    exact ⟨by omega, hsame⟩
  rcases hrest with ⟨rfl, rfl⟩ | ⟨hcurr, hrest⟩
  · exact ⟨⟨haddr, haddr ▸ hend⟩, by simpa using htype, by simpa using hwithin,
      [], trb, rfl, nofun, not_not.mp (mt hent.mp (Nat.lt_irrefl _))⟩
  · obtain ⟨init, last, hinit, hset, hlast⟩ := hrest.next
    refine ⟨⟨haddr, ?_⟩, List.forall_mem_cons.mpr ⟨htype, hrest.normal⟩,
      List.forall_mem_cons.mpr ⟨hwithin, hrest.within⟩,
      trb :: init, last, by rw [hinit, List.cons_append], List.forall_mem_cons.mpr ⟨hent.mpr hcurr, hset⟩, hlast⟩
    rw [← haddr, hend]
    exact hrest.tiles

/-- From any byte on, with the entry begun at `start`, the loop cuts the rest of the transfer into entries. -/
theorem normalLoop_normals (hmps : mps ≠ 0) (hstop : stop < 2 ^ 64) (hstart : start ≤ curr)
    (hsame : start / 0x10000 = curr / 0x10000) (hcurr : curr < stop) :
    ∃ entries, normalLoop mps stop start curr = some entries ∧ Normals start stop entries := by
  induction hn : stop - curr generalizing start curr with
  | zero => omega
  | succ n ih =>
    rw [normalLoop, if_pos hcurr]
    by_cases hcut : (curr + 1) % 0x10000 = 0 ∨ curr + 1 = stop
    · rw [if_pos hcut, if_neg hmps]
      by_cases hlast : curr + 1 = stop
      · rw [hlast, normalLoop, if_neg (Nat.lt_irrefl _)]
        exact ⟨_, rfl, normals_cons (by omega) (by omega) hstop (.inl ⟨rfl, rfl⟩)⟩
      · have hlt : curr + 1 < stop := by omega
        obtain ⟨rest, hrest, hnormals⟩ := ih (Nat.le_refl _) rfl hlt (by omega)
        rw [hrest]
        exact ⟨_, rfl, normals_cons (by omega) (by omega) hstop (.inr ⟨hlt, hnormals⟩)⟩
    · rw [if_neg hcut]
      exact ih (by omega) (by omega) (by omega) (by omega)

theorem normalLoop_none (hcurr : curr < stop) : normalLoop 0 stop start curr = none := by
  induction hn : stop - curr generalizing start curr with
  | zero => omega
  | succ n ih =>
    rw [normalLoop, if_pos hcurr]
    split
    · rfl
    · rename_i hcut
      exact ih (by omega) (by omega)

theorem submit_submitted (h : s.stage = .idle) (trb : Trb) :
    (s.submit trb).stage = .idle ∧ (s.submit trb).submitted = s.submitted ++ [trb] := by
  unfold Commands.submit Commands.step
  rw [h]
  by_cases hlast : s.index + 1 =
    s.ntrb <;> simp only [Nat.repeat, Commands.store, Commands.put, hlast, if_true, if_false]
  · split <;> exact ⟨trivial, rfl⟩
  · exact ⟨trivial, trivial⟩

theorem foldl_submitted (h : s.stage = .idle) (entries : List Trb) :
    (entries.foldl Commands.submit s).submitted = s.submitted ++ entries := by
  induction entries generalizing s with
  | nil => exact (List.append_nil _).symm
  | cons trb entries ih =>
    obtain ⟨hidle, hsub⟩ := submit_submitted h trb
    rw [List.foldl_cons, ih hidle, hsub, List.append_assoc, List.singleton_append]

/-- The call queues normal entries for the bytes of the transfer and an event entry behind them. -/
def Queues (ring : Commands) (mps : BitVec 16) (phys : BitVec 64) (size : BitVec 32) : Prop :=
  ∃ ring' normals, xhciTransferNormal ring mps phys size = some ring' ∧
    ring'.submitted = ring.submitted ++ (normals ++ [eventEntry]) ∧ Normals phys.toNat (phys.toNat + size.toNat) normals

theorem not_queues {mps : BitVec 16}
    (hring : ring.stage = .idle) (h : (phys + size.signExtend 64).toNat ≤ phys.toNat) : ¬Queues ring mps phys size := by
  rintro ⟨ring', normals, hcall, hsub, hnormals⟩
  rw [xhciTransferNormal, normalLoop, if_neg (Nat.not_lt.mpr h)] at hcall
  cases hcall
  rw [foldl_submitted hring] at hsub
  have hnil : [] = normals := List.append_cancel_right (List.append_cancel_left hsub)
  obtain ⟨init, last, heq, -⟩ := hnormals.next
  exact List.append_ne_nil_of_right_ne_nil init (List.cons_ne_nil last []) (heq.symm.trans hnil.symm)

theorem not_queues_no_packets
    (hlt : phys.toNat < (phys + size.signExtend 64).toNat) : ¬Queues ring 0 phys size := by
  rintro ⟨ring', normals, hcall, -⟩
  rw [xhciTransferNormal, show (0 : BitVec 16).toNat = 0 from rfl, normalLoop_none hlt] at hcall
  cases hcall

/-- The entries of a transfer are right exactly when its end does not wrap around and packets have a size. -/
theorem transfer_normal_iff (ring : Commands) (mps : BitVec 16) (phys : BitVec 64) (size : BitVec 32)
    (hring : ring.stage = .idle) (hsize : 0 < size.toInt) :
    Queues ring mps phys size ↔ mps ≠ 0 ∧ phys.toNat + size.toNat < 2 ^ 64 := by
  have hpos : 0 < size.toNat ∧ size.toNat < 2 ^ 31 := by
    rw [BitVec.toInt_eq_toNat_cond] at hsize
    split at hsize <;> omega
  have hstop : (phys + size.signExtend 64).toNat = (phys.toNat + size.toNat) % 2 ^ 64 := by
    have hmsb : size.msb = false := BitVec.msb_eq_false_iff_two_mul_lt.mpr (by omega)
    rw [BitVec.signExtend_eq_setWidth_of_msb_false hmsb, BitVec.toNat_add, BitVec.toNat_setWidth_of_le (by decide)]
  by_cases hwrap : phys.toNat + size.toNat < 2 ^ 64
  · rw [Nat.mod_eq_of_lt hwrap] at hstop
    have hlt : phys.toNat < phys.toNat + size.toNat := Nat.lt_add_of_pos_right hpos.1
    rw [and_iff_left hwrap]
    constructor
    · rintro h rfl
      exact not_queues_no_packets (hstop ▸ hlt) h
    · intro hmps
      obtain ⟨normals, hloop, hnormals⟩ := normalLoop_normals (mt (BitVec.toNat_inj (y := 0)).mp hmps) hwrap
        (Nat.le_refl _) rfl hlt
      refine ⟨_, normals, ?_, foldl_submitted hring _, hnormals⟩
      rw [xhciTransferNormal, hstop, hloop]
      rfl
  · exact iff_of_false (not_queues hring (by omega)) fun h => hwrap h.2

theorem transfer_normal_four : Queues (Commands.create 0) 512 0x1FFFE 4 :=
  (transfer_normal_iff _ _ _ _ rfl (by decide)).mpr (by decide)

/-- Packets of no size: the driver divides by 0. -/
theorem transfer_normal_no_packets : ¬Queues (Commands.create 0) 0 0x1FFFE 4 := not_queues_no_packets (by decide)

end Novino.Usb
