import Novino.Usb.Descriptors

/-! The walks over the descriptors of a USB device: when they come to an end inside of `desc_buf`. -/

namespace Novino.Usb.Descriptors

variable {buf : Bytes} {ptr : Option Nat} {p n stop : Nat} {next : Option Nat → Walk} {body : Nat → Option Walk}

inductive Reached (buf : Bytes) : Option Nat → Prop
  | start : Reached buf none
  | next {ptr : Option Nat} {p : Nat} (h : Reached buf ptr) (hp : usbNextDescriptor buf ptr = .returns (some p)) :
    Reached buf (some p)

/-- The loops over what one of the functions gives come to an end, and so does each call. -/
structure Walked (buf : Bytes) (n : Nat) (ptr : Option Nat) : Prop where
  next : ∃ r, walkLoop (usbNextDescriptor buf) (fun _ => none) n ptr = .returns r
  interface : ∃ r, walkLoop (findInterfaceDescriptor buf n) (fun _ => none) n ptr = .returns r
  endpoint : ∀ type dir, ∃ r, walkLoop (findEndpointDescriptor buf type dir n) (fun _ => none) n ptr = .returns r

/-- The descriptors that are reached have a length, and what is read of them lies in the buffer. -/
structure Sound (buf : Bytes) : Prop where
  length : ∀ p, Reached buf (some p) → buf p ≠ 0
  inside : ∀ ptr, Reached buf ptr → nextBase buf ptr < descEnd buf → nextBase buf ptr + 1 < DESC_BUF_SIZE
  endpoint : ∀ p, Reached buf (some p) → buf (p + 1) = USB_DESCRIPTOR_ENDPOINT → p + 3 < DESC_BUF_SIZE

theorem next_eq_some : usbNextDescriptor buf ptr = .returns (some p) ↔ ptr.getD descCfg < DESC_BUF_SIZE ∧
    p = nextBase buf ptr ∧ p < descEnd buf ∧ p + 1 < DESC_BUF_SIZE ∧ buf (p + 1) ≠ 0 := by
  unfold usbNextDescriptor
  split_ifs with hptr hend hout htype
  · exact iff_of_false (by simp) fun h => absurd h.1 (by omega)
  · refine iff_of_false (by simp) ?_
    rintro ⟨-, rfl, -, hin, -⟩
    omega
  · simp only [Walk.returns.injEq, Option.some.injEq]
    constructor
    · rintro rfl
      exact ⟨by omega, rfl, hend, by omega, htype⟩
    · exact fun h => h.2.1.symm
  · refine iff_of_false (by simp) ?_
    rintro ⟨-, rfl, -, -, hne⟩
    exact htype hne
  · refine iff_of_false (by simp) ?_
    rintro ⟨-, rfl, hlt, -⟩
    exact hend hlt

def rank (ptr : Option Nat) : Nat := ptr.elim 0 (· + 1)

/-- A function that gives pointers which are reached, each behind the one before. -/
def Forward (buf : Bytes) (stop : Nat) (next : Option Nat → Walk) : Prop :=
  ∀ ptr, Reached buf ptr → ∃ r, next ptr = .returns r ∧ ∀ p, r = some p → Reached buf (some p) ∧ rank ptr ≤ p ∧ p < stop

/-- What the loops do with a pointer: they go on or return, the pointer itself or 0. -/
def Plain (buf : Bytes) (body : Nat → Option Walk) : Prop :=
  ∀ p, Reached buf (some p) → body p = none ∨ body p = some (.returns none) ∨ body p = some (.returns (some p))

theorem Forward.loop (h : Forward buf stop next)
    (hbody : Plain buf body) (hn : stop < n) : Forward buf stop (walkLoop next body n) := by
  intro ptr hptr
  -- the fuel is more than what lies ahead of the pointer
  replace hn : stop - rank ptr < n := by omega
  induction n generalizing ptr with
  | zero => omega
  | succ n ih =>
    obtain ⟨r, hr, hahead⟩ := h ptr hptr
    rw [walkLoop, hr]
    cases r with
    | none => exact ⟨none, rfl, fun _ h => nomatch h⟩
    | some p =>
      obtain ⟨hp, hle, hlt⟩ := hahead p rfl
      rcases hbody p hp with hb | hb | hb <;> simp only [hb, Option.getD_none, Option.getD_some]
      · obtain ⟨r, hr, hahead⟩ := ih (some p) hp (by simp only [rank, Option.elim_some]; omega)
        refine ⟨r, hr, fun q hq => ?_⟩
        obtain ⟨hq, hqle, hqlt⟩ := hahead q hq
        simp only [rank, Option.elim_some] at hqle
        exact ⟨hq, by omega, hqlt⟩
      · exact ⟨none, rfl, fun _ h => nomatch h⟩
      · exact ⟨some p, rfl, hahead⟩

theorem Sound.forward (h : Sound buf) : Forward buf (descEnd buf) (usbNextDescriptor buf) := by
  intro ptr hptr
  have hin : ptr.getD descCfg < DESC_BUF_SIZE := by
    cases hptr with
    | start => decide
    | next _ hp => exact Nat.lt_of_succ_lt (next_eq_some.mp hp).2.2.2.1
  have hahead : rank ptr ≤ nextBase buf ptr := by
    cases ptr with
    | none => exact Nat.zero_le _
    | some p =>
      have hpos : (buf p).toNat ≠ 0 := fun hzero => h.length p hptr (BitVec.eq_of_toNat_eq hzero)
      simp only [rank, nextBase, Option.elim_some, Option.getD_some]
      omega
  by_cases hend : nextBase buf ptr < descEnd buf ∧ buf (nextBase buf ptr + 1) ≠ 0
  · have hp := next_eq_some.mpr ⟨hin, rfl, hend.1, h.inside ptr hptr hend.1, hend.2⟩
    refine ⟨_, hp, fun p heq => ?_⟩
    obtain rfl := Option.some.inj heq
    exact ⟨hptr.next hp, hahead, hend.1⟩
  · refine ⟨none, ?_, fun _ h => nomatch h⟩
    unfold usbNextDescriptor
    rw [if_neg (by omega)]
    split_ifs with hlt hout htype
    · exact absurd (h.inside ptr hptr hlt) (by omega)
    · exact absurd ⟨hlt, htype⟩ hend
    · rfl
    · rfl

theorem Sound.walked (h : Sound buf) (hptr : Reached buf ptr) : Walked buf (descEnd buf + 1) ptr := by
  have hgoes : Plain buf fun _ => none := fun _ _ => .inl rfl
  have ends : ∀ {next}, Forward buf (descEnd buf) next →
      ∃ r, walkLoop next (fun _ => none) (descEnd buf + 1) ptr = .returns r := fun hnext =>
    (hnext.loop hgoes (Nat.lt_succ_self _) ptr hptr).imp fun _ h => h.1
  refine ⟨ends h.forward, ends (h.forward.loop (fun p _ => ?_) (Nat.lt_succ_self _)), fun type dir =>
    ends (h.forward.loop (fun p hp => ?_) (Nat.lt_succ_self _))⟩
  · split_ifs
    · exact .inr (.inr rfl)
    · exact .inl rfl
  · split_ifs with htype hout
    · exact absurd (h.endpoint p hp htype) (by omega)
    · exact .inr (.inr rfl)
    · exact .inl rfl
    · exact .inr (.inl rfl)
    · exact .inl rfl

theorem walkLoop_outside (h : next ptr = .outside) :
    ¬∃ r, walkLoop next body n ptr = .returns r := by
  rintro ⟨r, hr⟩
  cases n with
  | zero => cases hr
  | succ n =>
    rw [walkLoop, h] at hr
    cases hr

theorem walkLoop_same (h : next (some p) = .returns (some p)) :
    walkLoop next (fun _ => none) n (some p) = .running := by
  induction n with
  | zero => rfl
  | succ n ih =>
    rw [walkLoop, h]
    exact ih

theorem sound_of_walked (h : ∀ ptr, Reached buf ptr → Walked buf n ptr) : Sound buf where
  length p hp hzero := by
    have hsame : nextBase buf (some p) = p := by simp [nextBase, hzero]
    obtain ⟨r, hr⟩ := (h _ hp).next
    cases hp with
    | next _ hp =>
      obtain ⟨-, -, hend, hin, htype⟩ := next_eq_some.mp hp
      rw [walkLoop_same (next_eq_some.mpr ⟨Nat.lt_of_succ_lt hin, hsame.symm, hend, hin, htype⟩)] at hr
      cases hr
  inside ptr hptr hend := by
    by_contra hout
    refine walkLoop_outside ?_ (h ptr hptr).next
    unfold usbNextDescriptor
    rw [if_pos hend, if_pos (Nat.le_of_not_lt hout), ite_self]
  endpoint p hp htype := by
    by_contra hout
    cases hp with
    | @next ptr _ hptr hp =>
      cases n with
      | zero => exact (h ptr hptr).next.elim fun _ hr => nomatch hr
      | succ n =>
        refine walkLoop_outside ?_ ((h ptr hptr).endpoint 0 0)
        simp only [findEndpointDescriptor, walkLoop, hp, htype, if_true, if_pos (Nat.le_of_not_lt hout),
          Option.getD_some]

/-- The copy of a configuration and the walks over it come to an end inside of `desc_buf`. -/
def Inside (buf desc : Bytes) : Prop :=
  ∃ buf', usbGetConfigDescriptor buf desc = some buf' ∧ ∃ n, ∀ ptr, Reached buf' ptr → Walked buf' n ptr

/-- The configuration stays inside of the buffer exactly if it fits and its descriptors are sound. -/
theorem descriptors_inside_iff (buf desc : Bytes) :
    Inside buf desc ↔ descCfg + wTotalLength desc 0 ≤ DESC_BUF_SIZE ∧
      ∃ buf', usbGetConfigDescriptor buf desc = some buf' ∧ Sound buf' := by
  constructor
  · rintro ⟨buf', hbuf, n, hn⟩
    refine ⟨?_, buf', hbuf, sound_of_walked hn⟩
    by_contra hlong
    rw [usbGetConfigDescriptor, if_neg hlong] at hbuf
    cases hbuf
  · rintro ⟨-, buf', hbuf, hs⟩
    exact ⟨buf', hbuf, _, fun _ => hs.walked⟩

/-- A configuration of 512 bytes runs over the end, and one with a length of 0 in its first descriptor is walked
    forever. -/
theorem descriptors_outside : ¬Inside (fun _ => 0) (fun i => if i = 3 then 2 else 0) ∧
    ¬Inside (fun _ => 0) fun i => if i = 1 then 2 else if i = 2 then 9 else 0 := by
  constructor
  · rintro ⟨buf', hbuf, -⟩
    cases hbuf
  · rintro ⟨buf', hbuf, n, hn⟩
    obtain rfl := Option.some.inj hbuf
    exact (sound_of_walked hn).length descCfg (Reached.start.next rfl) rfl

end Novino.Usb.Descriptors
