import Novino.Lib.Steps
import Novino.Time.Timer

/-! Timers fire once, at the first tick at which they are due. The exceptions come from the value 0 of `next_deadline`
    and from the sign of a 64-bit difference. -/

namespace Novino.Time

open Steps Timers

/-! ### The list of timers -/

variable {ts : Nat} {tm t : Timer} {timers : List Timer}

def Sorted (timers : List Timer) : Prop := timers.Pairwise fun a b => a.deadline ≤ b.deadline

theorem insertTimer_perm : ∀ timers, (insertTimer tm timers).Perm (tm :: timers)
  | [] => List.Perm.refl _
  | item :: timers => by
    rw [insertTimer]
    split
    · exact List.Perm.refl _
    · exact ((insertTimer_perm timers).cons item).trans (List.Perm.swap _ _ _)

theorem insertTimer_ne_nil : insertTimer tm timers ≠ [] := fun h =>
  List.not_perm_nil_cons tm timers (h ▸ insertTimer_perm timers)

theorem sorted_insertTimer (h : Sorted timers) : Sorted (insertTimer tm timers) := by
  induction timers with
  | nil => exact List.pairwise_singleton _ _
  | cons item timers ih =>
    obtain ⟨hhead, hrest⟩ := List.pairwise_cons.mp h
    rw [insertTimer]
    split
    · rename_i hlt
      refine List.pairwise_cons.mpr ⟨fun t ht => ?_, h⟩
      rcases List.mem_cons.mp ht with rfl | ht
      · exact Nat.le_of_lt hlt
      · exact Nat.le_trans (Nat.le_of_lt hlt) (hhead t ht)
    · rename_i hge
      refine List.pairwise_cons.mpr ⟨fun t ht => ?_, ih hrest⟩
      rcases List.mem_cons.mp ((insertTimer_perm timers).mem_iff.mp ht) with rfl | ht
      · exact Nat.le_of_not_lt hge
      · exact hhead t ht

theorem headDeadline_insertTimer (h : timers ≠ []) :
    headDeadline (insertTimer tm timers) = min tm.deadline (headDeadline timers) := by
  cases timers with
  | nil => exact absurd rfl h
  | cons item timers =>
    rw [insertTimer]
    split
    · exact (Nat.min_eq_left (Nat.le_of_lt ‹_›)).symm
    · exact (Nat.min_eq_right (Nat.le_of_not_lt ‹_›)).symm

theorem headDeadline_le (h : Sorted timers) (ht : t ∈ timers) : headDeadline timers ≤ t.deadline := by
  cases timers with
  | nil => cases ht
  | cons item timers =>
    rcases List.mem_cons.mp ht with rfl | ht
    · exact Nat.le_refl _
    · exact (List.pairwise_cons.mp h).1 t ht

theorem eraseP_eq_filter {addr : Nat} (h : (timers.map (·.addr)).Nodup) :
    timers.eraseP (·.addr = addr) = timers.filter (·.addr ≠ addr) := by
  induction timers with
  | nil => rfl
  | cons item timers ih =>
    obtain ⟨hnew, hrest⟩ := List.nodup_cons.mp h
    by_cases heq : item.addr = addr
    · rw [List.eraseP_cons_of_pos (by simpa using heq), List.filter_cons_of_neg (by simpa using heq)]
      refine (List.filter_eq_self.mpr fun t ht => ?_).symm
      exact decide_eq_true fun h => hnew (List.mem_map.mpr ⟨t, ht, h.trans heq.symm⟩)
    · rw [List.eraseP_cons_of_neg (by simpa using heq), List.filter_cons_of_pos (by simpa using heq), ih hrest]

theorem takeWhile_eq_filter {p : Timer → Bool} (h : timers.Pairwise fun a b => p b → p a) :
    timers.takeWhile p = timers.filter p ∧ timers.dropWhile p = timers.filter fun t => !p t := by
  induction timers with
  | nil => exact ⟨rfl, rfl⟩
  | cons item timers ih =>
    obtain ⟨hhead, hrest⟩ := List.pairwise_cons.mp h
    cases hp : p item with
    | true =>
      rw [List.takeWhile_cons_of_pos hp, List.dropWhile_cons_of_pos hp, List.filter_cons_of_pos hp,
        List.filter_cons_of_neg (by rw [hp]; decide), (ih hrest).1, (ih hrest).2]
      exact ⟨rfl, rfl⟩
    | false =>
      have hnone : ∀ t ∈ item :: timers, p t = false := by
        intro t ht
        rcases List.mem_cons.mp ht with rfl | ht
        · exact hp
        · exact Bool.eq_false_iff.mpr fun h => Bool.eq_false_iff.mp hp (hhead t ht h)
      rw [List.takeWhile_cons_of_neg (by rw [hp]; decide), List.dropWhile_cons_of_neg (by rw [hp]; decide)]
      exact ⟨(List.filter_eq_nil_iff.mpr fun t ht => Bool.eq_false_iff.mp (hnone t ht)).symm,
        (List.filter_eq_self.mpr fun t ht => by rw [hnone t ht]; rfl).symm⟩

/-- The callback is to be called at time `ts`: the deadline is not more than 500 microseconds away. -/
def Due (ts deadline : Nat) : Prop := deadline ≤ ts + MARGIN

instance (ts deadline : Nat) : Decidable (Due ts deadline) := inferInstanceAs (Decidable (_ ≤ _))

theorem not_early_iff (hts : ts < 2 ^ 64) {deadline : Nat} (hd : deadline < 2 ^ 63) :
    ¬Early ts deadline ↔ Due ts deadline ∧ (ts + MARGIN - deadline) % 2 ^ 64 < 2 ^ 63 := by
  unfold Early Due MARGIN
  omega

theorem tickLoop_eq (ts : Nat) (timers : List Timer) (next : Nat) (fired : List Timer) :
    ∃ next', tickLoop ts timers next fired = (⟨timers.dropWhile fun t => ¬Early ts t.deadline, next'⟩,
        fired ++ timers.takeWhile fun t => ¬Early ts t.deadline) ∧
      ((timers ≠ [] → next = headDeadline timers) → (timers.dropWhile fun t => ¬Early ts t.deadline) ≠ [] →
        next' = headDeadline (timers.dropWhile fun t => ¬Early ts t.deadline)) ∧
      ((timers = [] → next = 0 ∨ next = 2 ^ 64 - 1) → (timers.dropWhile fun t => ¬Early ts t.deadline) = [] →
        next' = 0 ∨ next' = 2 ^ 64 - 1) := by
  induction timers generalizing next fired with
  | nil => exact ⟨next, by simp [tickLoop], fun _ h => absurd rfl h, fun h _ => h rfl⟩
  | cons item timers ih =>
    rw [tickLoop]
    by_cases he : Early ts item.deadline
    · simp only [he, if_true, not_true_eq_false, decide_false, Bool.false_eq_true, not_false_eq_true,
        List.dropWhile_cons_of_neg, List.takeWhile_cons_of_neg, List.append_nil]
      exact ⟨next, rfl, fun h _ => h (List.cons_ne_nil _ _), fun _ h => absurd h (List.cons_ne_nil _ _)⟩
    · obtain ⟨next', heq, hnext, hempty⟩ := ih (headDeadline timers) (fired ++ [item])
      simp only [he, if_false, not_false_eq_true, decide_true, List.dropWhile_cons_of_pos,
        List.takeWhile_cons_of_pos]
      refine ⟨next', ?_, fun _ => hnext fun _ => rfl, fun _ => hempty fun h => ?_⟩
      · rw [heq, List.append_assoc]
        rfl
      · rw [h]
        exact .inl rfl

inductive Event where
  | start (ts : Nat) (tm : Timer)
  | cancel (addr : Nat)
  | tick (ts : Nat)
deriving DecidableEq, Repr

/-- The timers, the deadline of each one that was started and since then has not been cancelled and has not been due at
a tick, and the last reading of the clock. -/
structure World where
  timers : Timers := {}
  wanted : Nat → Option Nat := fun _ => none
  clock : Nat := 0

namespace World

def step (w : World) : Event → World
  | .start ts tm =>
    ⟨(w.timers.timerStart ts tm).1, if tm.callback then Function.update w.wanted tm.addr (some (ts + tm.period))
      else w.wanted, ts⟩
  | .cancel addr => ⟨w.timers.timerCancel addr, Function.update w.wanted addr none, w.clock⟩
  | .tick ts => ⟨(w.timers.timerTick ts).1, fun addr => (w.wanted addr).filter fun d => ¬Due ts d, ts⟩

/-- The clock never goes back, deadlines stay below 2 ^ 63, and only inactive timers are started. -/
def Allowed (w : World) : Event → Prop
  | .start ts tm => w.clock ≤ ts ∧ ts + tm.period < 2 ^ 63 ∧ ∀ t ∈ w.timers.timers, t.addr ≠ tm.addr
  | .cancel _ => True
  | .tick ts => w.clock ≤ ts ∧ ts < 2 ^ 64

instance (w : World) : (e : Event) → Decidable (w.Allowed e)
  | .start _ _ => inferInstanceAs (Decidable (_ ∧ _ ∧ _))
  | .cancel _ => inferInstanceAs (Decidable True)
  | .tick _ => inferInstanceAs (Decidable (_ ∧ _))

/-- The list is sorted and has the timers that are wanted, each once, and `next_deadline` is the deadline of its head.
-/
structure Matches (w : World) : Prop where
  sorted : Sorted w.timers.timers
  next : w.timers.timers ≠ [] → w.timers.nextDeadline = headDeadline w.timers.timers
  once : (w.timers.timers.map (·.addr)).Nodup
  wanted : ∀ addr d, w.wanted addr = some d ↔ ∃ t ∈ w.timers.timers, t.addr = addr ∧ t.deadline = d

/-- The timers that a step fires are those that are due then, each once. -/
def FiresDue (w : World) : Event → Prop
  | .tick ts =>
    ((w.timers.timerTick ts).2.map (·.addr)).Nodup ∧
      ∀ addr, addr ∈ (w.timers.timerTick ts).2.map (·.addr) ↔ ∃ d, w.wanted addr = some d ∧ Due ts d
  | _ => True

def Right (w : World) (e : Event) : Prop := w.FiresDue e ∧ Matches (w.step e)

/-- No timer is started while another one has the deadline 0, and at a tick no timer has the deadline 0 or a time since
its deadline that is negative as a signed number. -/
def Fine (w : World) : Event → Prop
  | .start ts tm => tm.callback = true → 0 < ts + tm.period → ∀ addr, w.wanted addr ≠ some 0
  | .cancel _ => True
  | .tick ts => ∀ addr d, w.wanted addr = some d → d ≠ 0 ∧ (Due ts d → (ts + MARGIN - d) % 2 ^ 64 < 2 ^ 63)

structure Sound (w : World) : Prop extends Matches w where
  small : ∀ t ∈ w.timers.timers, t.deadline < 2 ^ 63
  empty : w.timers.timers = [] → w.timers.nextDeadline = 0 ∨ w.timers.nextDeadline = 2 ^ 64 - 1

variable {w : World} {addr : Nat}

theorem sound_init : Sound {} where
  sorted := List.Pairwise.nil
  next := fun h => absurd rfl h
  once := List.nodup_nil
  wanted := fun _ _ => iff_of_false nofun (by rintro ⟨t, ht, -⟩; cases ht)
  small := fun t ht => absurd ht List.not_mem_nil
  empty := fun _ => .inr rfl

theorem step_start_null (h : tm.callback = false) : w.step (.start ts tm) = { w with clock := ts } := by
  simp only [step, timerStart, h, Bool.not_false, if_true, Bool.false_eq_true, if_false]

theorem Sound.start_null (hs : Sound w) (h : tm.callback = false) : Sound (w.step (.start ts tm)) := by
  rw [step_start_null h]
  exact ⟨⟨hs.sorted, hs.next, hs.once, hs.wanted⟩, hs.small, hs.empty⟩

def nextStart (next deadline : Nat) : Nat :=
  if deadline < next then deadline else if next = 0 then deadline else next

theorem step_start (h : tm.callback = true) (hlt : ts + tm.period < 2 ^ 63) :
    w.step (.start ts tm) =
      ⟨⟨insertTimer { tm with deadline := ts + tm.period } w.timers.timers,
          nextStart w.timers.nextDeadline (ts + tm.period)⟩,
        Function.update w.wanted tm.addr (some (ts + tm.period)), ts⟩ := by
  have hmod : (ts + tm.period) % 2 ^ 64 = ts + tm.period := Nat.mod_eq_of_lt (by omega)
  simp only [step, timerStart, h, Bool.not_true, Bool.false_eq_true, if_false, if_true, hmod]
  rfl

section
variable (hs : Sound w)
include hs

theorem Sound.wanted_zero :
    (∃ addr, w.wanted addr = some 0) ↔ w.timers.timers ≠ [] ∧ headDeadline w.timers.timers = 0 := by
  constructor
  · rintro ⟨addr, h⟩
    obtain ⟨t, ht, -, hd⟩ := (hs.wanted addr 0).mp h
    exact ⟨List.ne_nil_of_mem ht, Nat.le_zero.mp (hd ▸ headDeadline_le hs.sorted ht)⟩
  · rintro ⟨hne, hhead⟩
    obtain ⟨item, timers, heq⟩ := List.exists_cons_of_ne_nil hne
    rw [heq] at hhead
    exact ⟨item.addr, (hs.wanted _ _).mpr ⟨item, heq ▸ List.mem_cons_self, rfl, hhead⟩⟩

theorem Sound.nextStart_iff {deadline : Nat} (hd : deadline < 2 ^ 63) (hdt : t.deadline = deadline) :
    nextStart w.timers.nextDeadline deadline = headDeadline (insertTimer t w.timers.timers) ↔
      (0 < deadline → ∀ addr, w.wanted addr ≠ some 0) := by
  have hzero := hs.wanted_zero
  by_cases hnil : w.timers.timers = []
  · have hall : ∀ addr, w.wanted addr ≠ some 0 := fun addr h => (hzero.mp ⟨addr, h⟩).1 hnil
    refine iff_of_true ?_ fun _ => hall
    rw [hnil]
    show _ = t.deadline
    unfold nextStart
    rcases hs.empty hnil with h | h <;> rw [h, hdt]
    · split <;> rfl
    · rw [if_pos (by omega)]
  · rw [headDeadline_insertTimer hnil, hs.next hnil, hdt]
    have hex : (∀ addr, w.wanted addr ≠ some 0) ↔ headDeadline w.timers.timers ≠ 0 := by
      rw [← not_exists, hzero]
      exact not_congr (and_iff_right hnil)
    rw [hex]
    unfold nextStart
    split
    · omega
    · split <;> omega

theorem Sound.wanted_start (hnew : ∀ t ∈ w.timers.timers, t.addr ≠ tm.addr) (deadline : Nat) (addr d : Nat) :
    Function.update w.wanted tm.addr (some deadline) addr = some d ↔
      ∃ t ∈ insertTimer { tm with deadline := deadline } w.timers.timers, t.addr = addr ∧ t.deadline = d := by
  simp only [(insertTimer_perm _).mem_iff, List.mem_cons]
  by_cases heq : addr = tm.addr
  · rw [heq, Function.update_self]
    constructor
    · rintro ⟨⟩
      exact ⟨_, .inl rfl, rfl, rfl⟩
    · rintro ⟨t, rfl | ht, haddr, rfl⟩
      · rfl
      · exact absurd haddr (hnew t ht)
  · rw [Function.update_of_ne heq, hs.wanted]
    constructor
    · rintro ⟨t, ht, h⟩
      exact ⟨t, .inr ht, h⟩
    · rintro ⟨t, rfl | ht, haddr, h⟩
      · exact absurd haddr.symm heq
      · exact ⟨t, ht, haddr, h⟩

theorem Sound.start (ha : w.Allowed (.start ts tm)) (hf : w.Fine (.start ts tm)) : Sound (w.step (.start ts tm)) := by
  obtain ⟨-, hlt, hnew⟩ := ha
  cases hc : tm.callback with
  | false => exact hs.start_null hc
  | true =>
    rw [step_start hc hlt]
    have hperm : (insertTimer { tm with deadline := ts + tm.period } w.timers.timers).Perm _ := insertTimer_perm _
    refine ⟨⟨sorted_insertTimer hs.sorted, fun _ => (hs.nextStart_iff hlt rfl).mpr (hf hc), ?_,
      hs.wanted_start hnew _⟩, fun t ht => ?_, fun h => ?_⟩
    · refine (hperm.map (·.addr)).nodup_iff.mpr (List.nodup_cons.mpr ⟨fun h => ?_, hs.once⟩)
      obtain ⟨t, ht, heq⟩ := List.mem_map.mp h
      exact hnew t ht heq
    · rcases List.mem_cons.mp (hperm.mem_iff.mp ht) with rfl | ht
      · exact hlt
      · exact hs.small t ht
    · exact absurd h insertTimer_ne_nil

theorem Sound.right_start (ha : w.Allowed (.start ts tm)) : w.Right (.start ts tm) ↔ w.Fine (.start ts tm) := by
  refine ⟨fun hr hc => ?_, fun hf => ⟨trivial, (hs.start ha hf).toMatches⟩⟩
  have hnext := hr.2.next
  rw [step_start hc ha.2.1] at hnext
  exact (hs.nextStart_iff ha.2.1 rfl).mp (hnext insertTimer_ne_nil)

theorem Sound.cancel : Sound (w.step (.cancel addr)) := by
  have herase : w.timers.timers.eraseP (·.addr = addr) = w.timers.timers.filter (·.addr ≠ addr) :=
    eraseP_eq_filter hs.once
  have hsub : (w.timers.timers.filter (·.addr ≠ addr)).Sublist w.timers.timers := List.filter_sublist
  simp only [step, timerCancel, herase]
  refine ⟨⟨hs.sorted.sublist hsub, fun _ => rfl, hs.once.sublist (hsub.map _), fun a d => ?_⟩,
    fun t ht => hs.small t (hsub.subset ht), fun h => .inl ?_⟩
  · simp only [List.mem_filter, decide_eq_true_eq]
    by_cases heq : a = addr
    · rw [heq, Function.update_self]
      refine iff_of_false nofun ?_
      rintro ⟨t, ⟨-, hne⟩, haddr, -⟩
      exact hne haddr
    · rw [Function.update_of_ne heq, hs.wanted]
      constructor
      · rintro ⟨t, ht, rfl, hd⟩
        exact ⟨t, ⟨ht, heq⟩, rfl, hd⟩
      · rintro ⟨t, ⟨ht, -⟩, h⟩
        exact ⟨t, ht, h⟩
  · exact congrArg headDeadline h

theorem Sound.timerTick_eq (hzero : ∀ addr, w.wanted addr ≠ some 0) :
    w.timers.timerTick ts = tickLoop ts w.timers.timers w.timers.nextDeadline [] := by
  have hnil : w.timers.timers = [] → tickLoop ts w.timers.timers w.timers.nextDeadline [] = (w.timers, []) := by
    intro h
    rw [h, tickLoop, ← h]
  unfold timerTick
  split
  · rename_i h0
    refine (hnil ?_).symm
    by_contra hne
    obtain ⟨addr, h⟩ := hs.wanted_zero.mpr ⟨hne, (hs.next hne).symm.trans h0⟩
    exact hzero addr h
  · split
    · rename_i hearly
      cases heq : w.timers.timers with
      | nil =>
        rw [heq] at hnil
        exact (hnil rfl).symm
      | cons item timers =>
        have hhead : w.timers.nextDeadline = item.deadline := by
          rw [hs.next (heq ▸ List.cons_ne_nil _ _), heq]
          rfl
        rw [hhead] at hearly
        rw [tickLoop, if_pos hearly, ← heq]
    · rfl

theorem Sound.tick_filter (ha : w.Allowed (.tick ts)) (hf : w.Fine (.tick ts)) :
    (w.timers.timers.takeWhile fun t => ¬Early ts t.deadline) = w.timers.timers.filter (fun t => Due ts t.deadline) ∧
      (w.timers.timers.dropWhile fun t => ¬Early ts t.deadline) =
        w.timers.timers.filter fun t => ¬Due ts t.deadline := by
  have hdue : ∀ t ∈ w.timers.timers, (¬Early ts t.deadline ↔ Due ts t.deadline) := fun t ht => by
    rw [not_early_iff ha.2 (hs.small t ht)]
    exact and_iff_left_of_imp (hf t.addr t.deadline ((hs.wanted _ _).mpr ⟨t, ht, rfl, rfl⟩)).2
  have hfirst : w.timers.timers.Pairwise fun a b =>
      decide (¬Early ts b.deadline) = true → decide (¬Early ts a.deadline) = true := by
    refine List.Pairwise.imp_of_mem ?_ hs.sorted
    intro a b hma hmb hle hb
    exact decide_eq_true ((hdue a hma).mpr (Nat.le_trans hle ((hdue b hmb).mp (of_decide_eq_true hb))))
  obtain ⟨htake, hdrop⟩ := takeWhile_eq_filter hfirst
  refine ⟨htake.trans (List.filter_congr fun t ht => decide_eq_decide.mpr (hdue t ht)),
    hdrop.trans (List.filter_congr fun t ht => ?_)⟩
  rw [← decide_not]
  exact decide_eq_decide.mpr (not_congr (hdue t ht))

theorem Sound.tick (ha : w.Allowed (.tick ts)) (hf : w.Fine (.tick ts)) :
    Sound (w.step (.tick ts)) ∧ w.FiresDue (.tick ts) := by
  have hzero : ∀ addr, w.wanted addr ≠ some 0 := fun addr h => (hf addr 0 h).1 rfl
  obtain ⟨next, heq, hnext, hempty⟩ := tickLoop_eq ts w.timers.timers w.timers.nextDeadline []
  obtain ⟨htake, hdrop⟩ := hs.tick_filter ha hf
  rw [hdrop, htake, List.nil_append, ← hs.timerTick_eq hzero] at heq
  rw [hdrop] at hnext hempty
  have hsub : (w.timers.timers.filter fun t => ¬Due ts t.deadline).Sublist w.timers.timers := List.filter_sublist
  unfold FiresDue
  simp only [step, heq]
  refine ⟨⟨⟨hs.sorted.sublist hsub, hnext hs.next, hs.once.sublist (hsub.map _), fun addr d => ?_⟩,
    fun t ht => hs.small t (hsub.subset ht), hempty hs.empty⟩, hs.once.sublist (List.filter_sublist.map _),
    fun addr => ?_⟩
  · simp only [Option.filter_eq_some_iff, hs.wanted, List.mem_filter, decide_eq_true_eq]
    constructor
    · rintro ⟨⟨t, ht, haddr, rfl⟩, hd⟩
      exact ⟨t, ⟨ht, hd⟩, haddr, rfl⟩
    · rintro ⟨t, ⟨ht, hd⟩, haddr, rfl⟩
      exact ⟨⟨t, ht, haddr, rfl⟩, hd⟩
  · simp only [List.mem_map, List.mem_filter, decide_eq_true_eq, hs.wanted]
    constructor
    · rintro ⟨t, ⟨ht, hd⟩, haddr⟩
      exact ⟨t.deadline, ⟨t, ht, haddr, rfl⟩, hd⟩
    · rintro ⟨d, ⟨t, ht, haddr, rfl⟩, hd⟩
      exact ⟨t, ⟨ht, hd⟩, haddr⟩

theorem Sound.mem_timerTick (ht : t ∈ w.timers.timers)
    (h : Early ts t.deadline ∨ ∃ addr, w.wanted addr = some 0) : t ∈ (w.timers.timerTick ts).1.timers := by
  by_cases hzero : ∃ addr, w.wanted addr = some 0
  · obtain ⟨hne, hhead⟩ := hs.wanted_zero.mp hzero
    rw [timerTick, if_pos ((hs.next hne).trans hhead)]
    exact ht
  · have hearly := h.resolve_right hzero
    obtain ⟨next, heq, -⟩ := tickLoop_eq ts w.timers.timers w.timers.nextDeadline []
    rw [hs.timerTick_eq (not_exists.mp hzero), heq]
    rw [← List.takeWhile_append_dropWhile (p := fun t : Timer => decide ¬Early ts t.deadline)
      (l := w.timers.timers)] at ht
    refine (List.mem_append.mp ht).resolve_left fun htake => ?_
    exact of_decide_eq_true (List.all_eq_true.mp List.all_takeWhile t htake) hearly

theorem Sound.right_tick (ha : w.Allowed (.tick ts)) : w.Right (.tick ts) ↔ w.Fine (.tick ts) := by
  refine ⟨fun hr addr d hw => ?_, fun hf => ⟨(hs.tick ha hf).2, (hs.tick ha hf).1.toMatches⟩⟩
  obtain ⟨t, ht, rfl, rfl⟩ := (hs.wanted _ _).mp hw
  -- a timer that is due is not wanted any more after the tick, so that it cannot have stayed in the list
  have hgone : Due ts t.deadline → t ∉ (w.timers.timerTick ts).1.timers := by
    intro hd hstay
    have := (hr.2.wanted t.addr t.deadline).mpr ⟨t, hstay, rfl, rfl⟩
    exact of_decide_eq_true (Option.filter_eq_some_iff.mp this).2 hd
  refine ⟨fun h0 => ?_, fun hd => ?_⟩
  · refine hgone (by rw [h0]; exact Nat.zero_le _) (hs.mem_timerTick ht (.inr ⟨t.addr, h0 ▸ hw⟩))
  · by_contra hbig
    refine hgone hd (hs.mem_timerTick ht (.inl ?_))
    by_contra hearly
    exact hbig ((not_early_iff ha.2 (hs.small t ht)).mp hearly).2

theorem Sound.step {e : Event} (ha : w.Allowed e) (hf : w.Fine e) : Sound (w.step e) := by
  cases e with
  | start ts tm => exact hs.start ha hf
  | cancel addr => exact hs.cancel
  | tick ts => exact (hs.tick ha hf).1

theorem Sound.right_iff {e : Event} (ha : w.Allowed e) : w.Right e ↔ w.Fine e := by
  cases e with
  | start ts tm => exact hs.right_start ha
  | cancel addr => exact iff_of_true ⟨trivial, hs.cancel.toMatches⟩ trivial
  | tick ts => exact hs.right_tick ha

end

/-- Where the clock does not go back, deadlines stay below 2 ^ 63 and only inactive timers are started: every tick fires
exactly the timers that are due, and the list and `next_deadline` are right, exactly if every step is fine. -/
theorem timers_right_iff (events : List Event) (ha : Along step Allowed {} events) :
    Along step Right {} events ↔ Along step Fine {} events :=
  Along.congr (fun _ _ hs ha hf => Sound.step hs ha hf) (fun _ _ hs ha => Sound.right_iff hs ha) sound_init ha

def timerAt (addr period : Nat) : Timer := ⟨addr, period, true, 0⟩

theorem timers_right_two :
    Along step Right {} [.start 1000 (timerAt 8 9000000), .start 1000 (timerAt 16 2000000), .tick 1000000,
      .tick 2000000, .cancel 8, .tick 9000000] := by
  refine (timers_right_iff _ (by decide +kernel)).mpr ⟨?_, ?_, ?_, ?_, ?_, ?_, trivial⟩
  · intro _ _ addr h
    cases h
  · intro _ _ addr h
    simp [step, timerAt, Function.update_apply] at h
  · intro addr d h
    simp only [step, timerAt] at h
    grind [Due, MARGIN]
  · intro addr d h
    simp only [step, timerAt] at h
    grind [Due, MARGIN]
  · trivial
  · intro addr d h
    simp only [step, timerAt, Function.update_apply] at h
    grind [Due, MARGIN]

/-- A timer with period 0 at time 0 has the deadline 0, and `next_deadline` says that there is no timer: the next tick
does not fire it, and the next start overwrites `next_deadline`. -/
theorem timers_deadline_zero :
    let w := step {} (.start 0 (timerAt 8 0))
    ¬w.Right (.tick 1000000) ∧ (w.timers.timerTick 1000000).2 = [] ∧ ¬w.Right (.start 0 (timerAt 16 5)) ∧
      (w.step (.start 0 (timerAt 16 5))).timers.nextDeadline = 5 := by
  intro w
  have hs : Sound w := sound_init.step (e := .start 0 (timerAt 8 0)) (by decide) fun _ h => absurd h (by decide)
  have hw : w.wanted 8 = some 0 := rfl
  refine ⟨fun hr => ?_, by decide, fun hr => ?_, by decide⟩
  · exact ((hs.right_iff (by decide)).mp hr 8 0 hw).1 rfl
  · exact (hs.right_iff (by decide)).mp hr rfl (by decide) 8 hw

/-- Timers are fired in the order of their deadlines, and none before one that is left and is due earlier. -/
theorem timers_fire_sorted (events : List Event) (h : Along step (fun w e => w.Allowed e ∧ w.Fine e) {} events)
    (ts : Nat) :
    Sorted
      (((events.foldl step {}).timers.timerTick ts).2 ++ ((events.foldl step {}).timers.timerTick ts).1.timers) := by
  have hs : Sound (events.foldl step {}) := h.invariant (fun _ _ hs he => hs.step he.1 he.2) sound_init
  have hsplit : ∀ s : Timers, (s.timerTick ts).2 ++ (s.timerTick ts).1.timers = s.timers := by
    intro s
    obtain ⟨next, heq, -⟩ := tickLoop_eq ts s.timers s.nextDeadline []
    unfold timerTick
    split_ifs
    · rfl
    · rfl
    · rw [heq]
      exact List.takeWhile_append_dropWhile
  rw [hsplit]
  exact hs.sorted

theorem timers_fire_sorted_three :
    let w := [Event.start 1000 (timerAt 8 9000000), .start 1000 (timerAt 16 2000000),
      .start 1000 (timerAt 24 1000000)].foldl
      step {}
    (w.timers.timerTick 2000000).2.map (·.addr) = [24, 16] ∧ (w.timers.timerTick 2000000).1.timers.map (·.addr) = [8] ∧
      Sorted ((w.timers.timerTick 2000000).2 ++ (w.timers.timerTick 2000000).1.timers) := by
  refine ⟨by decide, by decide, timers_fire_sorted
    [.start 1000 (timerAt 8 9000000), .start 1000 (timerAt 16 2000000), .start 1000 (timerAt 24 1000000)] ?_ 2000000⟩
  refine ⟨⟨by decide, fun _ _ _ => nofun⟩, ⟨by decide +kernel, fun _ _ addr h => ?_⟩,
    ⟨by decide +kernel, fun _ _ addr h => ?_⟩, trivial⟩ <;> simp only [step, timerAt] at h
  · grind
  · grind

end World
end Novino.Time
