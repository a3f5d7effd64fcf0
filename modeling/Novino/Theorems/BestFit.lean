import Novino.Lib.Runs
import Novino.Ext2.Alloc

/-! The search of `ext2_blocks_alloc` is a best fit search over the runs of the bitmap, where a full byte is skipped
    without ending a run. -/

namespace Novino.Ext2
open Runs

def freeBit (bitmap : Block) (p : Nat) : Prop := bitmap.bit p = false

instance (bitmap : Block) : DecidablePred (freeBit bitmap) :=
  fun p => inferInstanceAs (Decidable (bitmap.bit p = false))

def stopBit (bitmap : Block) (p : Nat) : Prop := bitmap.bit p = true ∧ bitmap (p / 8) ≠ 0xFF#8

variable {bitmap : Block} {p : Nat}

theorem not_stop_of_free (h : freeBit bitmap p) : ¬stopBit bitmap p := by
  rintro ⟨h', -⟩
  rw [freeBit] at h
  simp [h] at h'

theorem bit_of_full (h : bitmap (p / 8) = 0xFF#8) : bitmap.bit p = true := by
  have := Block.byte_eq_ff_iff.mp h (p % 8) (Nat.mod_lt _ (by omega))
  rwa [Nat.div_add_mod] at this

structure ScanInv (cnt : Nat) (bitmap : Block) (e : Nat) (r : Scan) : Prop where
  idle : r.currCount = 0 → NoOpen (freeBit bitmap) (stopBit bitmap) e
  busy : r.currCount ≠ 0 → Open (freeBit bitmap) (stopBit bitmap) e r.currStart r.currCount
  best : BestFit cnt (Closed (freeBit bitmap) (stopBit bitmap) e) r.bestStart r.bestCount

section
variable {cnt : Nat} {bitmap : Block} {e : Nat} {r : Scan} {i : Nat}

theorem close_take (h : r.bestCount = 0 ∨ Beats cnt r.currCount r.bestCount) :
    r.close cnt = { r with bestStart := r.currStart, bestCount := r.currCount } := by
  unfold Scan.close
  unfold Beats at h
  split
  · rfl
  · split
    · rw [if_pos (by omega)]
    · rw [if_pos (by omega)]

theorem close_keep (h₀ : r.bestCount ≠ 0) (h : ¬Beats cnt r.currCount r.bestCount) : r.close cnt = r := by
  unfold Scan.close
  unfold Beats at h
  rw [if_neg h₀]
  split <;> rw [if_neg (by omega)]

theorem init_inv (cnt : Nat) (bitmap : Block) : ScanInv cnt bitmap 0 {} where
  idle _ := fun q hq => absurd hq (Nat.not_lt_zero q)
  busy h := absurd rfl h
  best := ⟨fun _ _ _ ⟨_, x, _, hx, _⟩ => absurd hx (Nat.not_lt_zero x), fun h => absurd rfl h, fun h => absurd rfl h⟩

theorem ScanInv.close (hcnt : 0 < cnt) (h : ScanInv cnt bitmap e r) :
    BestFit cnt (Run (freeBit bitmap) (stopBit bitmap) e) (r.close cnt).bestStart (r.close cnt).bestCount := by
  by_cases hc : r.currCount = 0
  · have hrun : ∀ q m, Run (freeBit bitmap) (stopBit bitmap) e q m ↔ Closed (freeBit bitmap) (stopBit bitmap) e q m :=
      fun q m => ⟨fun hr => hr.resolve_right (h.idle hc).not_open, .inl⟩
    by_cases hb : r.bestCount = 0
    · rw [close_take (.inl hb)]
      refine ⟨fun _ q m hr => h.best.none hb q m ((hrun q m).mp hr), fun h0 => absurd hc h0, fun h0 => absurd hc h0⟩
    · rw [close_keep hb (by unfold Beats; omega)]
      exact h.best.congr hrun
  · have hopen := h.busy hc
    have hrun : ∀ q m, Run (freeBit bitmap) (stopBit bitmap) e q m ↔
        Closed (freeBit bitmap) (stopBit bitmap) e q m ∨ q = r.currStart ∧ m = r.currCount := by
      intro q m
      refine or_congr_right ⟨fun ho => ho.unique hopen, ?_⟩
      rintro ⟨rfl, rfl⟩
      exact hopen
    have hlater : ∀ q m, Closed (freeBit bitmap) (stopBit bitmap) e q m → q < r.currStart :=
      fun q m hcl => hcl.lt_open hopen
    by_cases hb : r.bestCount = 0 ∨ Beats cnt r.currCount r.bestCount
    · rw [close_take hb]
      exact (h.best.take hc hb hlater).congr hrun
    · obtain ⟨h₀, hn⟩ := not_or.mp hb
      rw [close_keep h₀ hn]
      exact (h.best.keep h₀ hn hlater).congr hrun

theorem ScanInv.scanBit (hcnt : 0 < cnt) (h : ScanInv cnt bitmap e r) (hfull : bitmap (e / 8) ≠ 0xFF#8) :
    ScanInv cnt bitmap (e + 1) (scanBit cnt r e (bitmap.bit e)) := by
  cases hbit : bitmap.bit e with
  | false =>
    have hfree : freeBit bitmap e := hbit
    have hns : ¬stopBit bitmap e := not_stop_of_free hfree
    have hbest := h.best.congr fun q m => closed_succ (n := m) (p := q) hns
    by_cases hc : r.currCount = 0
    · rw [Ext2.scanBit, if_pos rfl, if_pos hc]
      exact ⟨fun h0 => by simp at h0, fun _ => (h.idle hc).opens hfree hns, hbest⟩
    · rw [Ext2.scanBit, if_pos rfl, if_neg hc]
      refine ⟨fun h0 => by simp at h0, fun _ => ?_, hbest⟩
      have := (h.busy hc).succ hns
      rwa [if_pos hfree] at this
  | true =>
    have hstop : stopBit bitmap e := ⟨hbit, hfull⟩
    have hno : NoOpen (freeBit bitmap) (stopBit bitmap) (e + 1) := noOpen_succ_stop (fun _ => not_stop_of_free) hstop
    have hrun : ∀ q m, Closed (freeBit bitmap) (stopBit bitmap) (e + 1) q m ↔
        Run (freeBit bitmap) (stopBit bitmap) e q m := fun _ _ => closed_succ_stop hstop
    by_cases hc : r.currCount = 0
    · rw [Ext2.scanBit, if_neg (by simp), if_pos hc]
      refine ⟨fun _ => hno, fun h0 => absurd hc h0, h.best.congr fun q m => ?_⟩
      rw [hrun]
      exact ⟨fun hr => hr.resolve_right (h.idle hc).not_open, .inl⟩
    · rw [Ext2.scanBit, if_neg (by simp), if_neg hc]
      exact ⟨fun _ => hno, fun h0 => absurd rfl h0, (h.close hcnt).congr hrun⟩

theorem ScanInv.skip (h : ScanInv cnt bitmap e r) (hfull : bitmap (e / 8) = 0xFF#8) :
    ScanInv cnt bitmap (e + 1) r := by
  have hnf : ¬freeBit bitmap e := by simp [freeBit, bit_of_full hfull]
  have hns : ¬stopBit bitmap e := fun hs => hs.2 hfull
  refine ⟨fun hc => (h.idle hc).succ hnf, fun hc => ?_, h.best.congr fun q m => closed_succ hns⟩
  have := (h.busy hc).succ hns
  rwa [if_neg hnf] at this

theorem ScanInv.skipByte (hfull : bitmap i = 0xFF#8) (h : ScanInv cnt bitmap (8 * i) r) (j : Nat)
    (hj : j ≤ 8) : ScanInv cnt bitmap (8 * i + j) r := by
  induction j with
  | zero => exact h
  | succ j ih =>
    have := (ih (by omega)).skip
    rw [show (8 * i + j) / 8 = i by omega] at this
    exact this hfull

theorem ScanInv.scanByte (hcnt : 0 < cnt) (hfull : bitmap i ≠ 0xFF#8) (n j : Nat) (hj : j + n ≤ 8)
    (h : ScanInv cnt bitmap (8 * i + j) r) : ScanInv cnt bitmap (8 * i + (j + n)) (scanByte cnt bitmap i n j r) := by
  induction n generalizing j r with
  | zero => exact h
  | succ n ih =>
    have hstep := h.scanBit hcnt (by rwa [show (8 * i + j) / 8 = i by omega])
    have := ih (j + 1) (by omega) hstep
    rwa [show j + 1 + n = j + (n + 1) by omega] at this

theorem ScanInv.exact (hcnt : 0 < cnt) (h : ScanInv cnt bitmap e r) (hb : r.bestCount = cnt) {e' : Nat} (he : e ≤ e') :
    BestFit cnt (Run (freeBit bitmap) (stopBit bitmap) e') (r.close cnt).bestStart (r.close cnt).bestCount := by
  have h₀ : r.bestCount ≠ 0 := by omega
  rw [close_keep h₀ (by unfold Beats; omega)]
  obtain ⟨hopens, x, hpx, hxe, hx⟩ := h.best.run h₀
  refine ⟨fun h0 => absurd h0 h₀, fun _ => .inl ⟨hopens, x, hpx, by omega, hx⟩, fun _ q m hr => ⟨?_, fun hm => ?_⟩⟩
  · unfold Beats
    omega
  · -- a run that starts before the best one is stopped before it
    by_contra hlt
    have hq : Opens (freeBit bitmap) (stopBit bitmap) q := hr.elim (·.1) (·.1)
    obtain ⟨y, hqy, hyp, hy⟩ := hopens.2 q (by omega) hq.1
    have hclosed : Closed (freeBit bitmap) (stopBit bitmap) e q m := by
      rcases hr with ⟨_, z, hqz, -, hz, hn, hm⟩ | ⟨_, -, hn, -⟩
      · have : z ≤ y := by
          by_contra hzy
          exact hn y (by omega) (by omega) hy
        exact ⟨hq, z, hqz, by omega, hz, hn, hm⟩
      · exact absurd hy (hn y (by omega) (by omega))
    exact hlt ((h.best.best h₀ q m hclosed).2 hm)

theorem scanBytes_best (hcnt : 0 < cnt) (n i : Nat) (h : ScanInv cnt bitmap (8 * i) r) :
    BestFit cnt (Run (freeBit bitmap) (stopBit bitmap) (8 * (i + n)))
      ((scanBytes cnt bitmap n i r).close cnt).bestStart ((scanBytes cnt bitmap n i r).close cnt).bestCount := by
  induction n generalizing i r with
  | zero => exact h.close hcnt
  | succ n ih =>
    rw [show i + (n + 1) = i + 1 + n by omega]
    unfold scanBytes
    split
    · rename_i hfull
      exact ih (i + 1) (h.skipByte hfull 8 (Nat.le_refl 8))
    · rename_i hfull
      have hbyte := ScanInv.scanByte hcnt hfull 8 0 (by omega) h
      dsimp only
      split
      · rename_i hb
        exact hbyte.exact hcnt hb (by omega)
      · exact ih (i + 1) hbyte

end

theorem scan_best {cnt : Nat} (hcnt : 0 < cnt) (bitmap : Block) (size : Nat) :
    BestFit cnt (Run (freeBit bitmap) (stopBit bitmap) (8 * size))
      (scan cnt bitmap size).bestStart (scan cnt bitmap size).bestCount := by
  have := scanBytes_best hcnt size 0 (init_inv cnt bitmap)
  rwa [Nat.zero_add] at this

section
variable {bitmap : Block} {e p n : Nat}

theorem bit_before (h : Opens (freeBit bitmap) (stopBit bitmap) p) (hp : 0 < p) : bitmap.bit (p - 1) = true := by
  by_contra hf
  obtain ⟨x, hx₁, hx₂, -⟩ := h.2 (p - 1) (by omega) (by simpa [freeBit] using hf)
  omega

theorem run_extent (h : Run (freeBit bitmap) (stopBit bitmap) e p n) :
    p + n ≤ e ∧ ∀ x, p ≤ x → x < p + n → ¬stopBit bitmap x := by
  rcases h with ⟨ho, x, hpx, hxe, -, hn, rfl⟩ | ⟨ho, hpe, hn, rfl⟩
  · have : length (freeBit bitmap) p x ≤ x - p := length_le p x
    exact ⟨by omega, fun y hy hy' => hn y hy (by omega)⟩
  · have : length (freeBit bitmap) p e ≤ e - p := length_le p e
    exact ⟨by omega, fun y hy hy' => hn y hy (by omega)⟩

def FullByteIn (bitmap : Block) (p n : Nat) : Prop := ∃ i, p < 8 * i ∧ 8 * i < p + n ∧ bitmap i = 0xFF#8

theorem run_free_iff (h : Run (freeBit bitmap) (stopBit bitmap) e p n) {m : Nat} (hm : m ≤ n) :
    (∀ k < m, bitmap.bit (p + k) = false) ↔ ¬FullByteIn bitmap p m := by
  have hfree : bitmap.bit p = false := h.elim (·.1.1) (·.1.1)
  constructor
  · rintro hall ⟨i, h₁, h₂, hfull⟩
    have hbit := hall (8 * i - p) (by omega)
    rw [show p + (8 * i - p) = 8 * i by omega] at hbit
    have := Block.byte_eq_ff_iff.mp hfull 0 (by omega)
    simp [hbit] at this
  · intro hno k hk
    by_contra hset
    have hset : bitmap.bit (p + k) = true := by simpa using hset
    have hfull : bitmap ((p + k) / 8) = 0xFF#8 := by
      by_contra hnf
      exact (run_extent h).2 (p + k) (by omega) (by omega) ⟨hset, hnf⟩
    -- the run starts outside the full byte
    refine hno ⟨(p + k) / 8, ?_, by omega, hfull⟩
    by_contra hle
    have hp8 : p / 8 = (p + k) / 8 := by omega
    rw [bit_of_full (by rwa [hp8])] at hfree
    simp at hfree

end

end Novino.Ext2
