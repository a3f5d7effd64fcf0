import Novino.Lib.Steps
import Novino.Sched.Process

/-! Parents that wait for their children, and when they are woken. -/

namespace Novino.Sched.Processes

variable {s : Processes} {p c : Nat} {e : ExitCall}

/-- The exit of some process still has a wake-up of this one to perform. -/
def WakeComing (s : Processes) (p : Nat) : Prop := ∃ c, ∃ e ∈ s.exit c, e.parent = p

/-- A call that sleeps has a child to wait for, and a wake-up comes if such a child has terminated. -/
structure Attended (s : Processes) (p : Nat) (pid : Int) : Prop where
  woken : ∀ c ∈ s.children p, s.terminated c = true → answers pid c = true → s.WakeComing p
  child : ∃ c ∈ s.children p, answers pid c = true

def Safe (s : Processes) : Prop := ∀ p, ∀ w ∈ s.wait p, w.place = .asleep → s.Attended p w.pid

/-- When a parent goes to sleep, no child that it waits for has terminated, and it has one; and no process is adopted
during its own exit. -/
def Prompt (s : Processes) : ProcessOp → Prop
  | .waiting p => ∀ w ∈ s.wait p, w.place = .sleep →
      (∀ c ∈ s.children p, s.terminated c = true → answers w.pid c = false) ∧ (w.pid = 0 → s.children p ≠ [])
  | .exiting c => ∀ e ∈ s.exit c, e.terminated = false → ∀ g ∈ (s.children c).head?, s.exit g = none
  | _ => True

instance : (op : ProcessOp) → Decidable (s.Prompt op)
  | .waiting p => inferInstanceAs (Decidable (∀ w ∈ s.wait p, w.place = .sleep →
      (∀ c ∈ s.children p, s.terminated c = true → answers w.pid c = false) ∧ (w.pid = 0 → s.children p ≠ [])))
  | .exiting c => inferInstanceAs (Decidable (∀ e ∈ s.exit c, e.terminated = false →
      ∀ g ∈ (s.children c).head?, s.exit g = none))
  | .create _ | .wait _ _ | .exit _ _ | .interrupt _ => inferInstanceAs (Decidable True)

structure Inv (s : Processes) : Prop where
  safe : s.Safe
  known : ∀ p, ∀ c ∈ s.children p, c < s.next
  parent : ∀ p, ∀ c ∈ s.children p, s.parent c = p
  nodup : ∀ p, (s.children p).Nodup
  /-- The parent that an exit has read is the one whose child the process is. -/
  exits : ∀ c, ∀ e ∈ s.exit c, c < s.next ∧ s.wait c = none ∧ ∀ p, c ∈ s.children p → e.parent = p
  /-- A scan for one pid found this child. -/
  found : ∀ p, ∀ w ∈ s.wait p, w.place = .sleep → w.pid ≠ 0 → ∃ c ∈ s.children p, (c : Int) = w.pid

theorem Inv.init : init.Inv where
  safe := fun _ _ hw => by cases hw
  known := fun _ _ hc => by cases hc
  parent := fun _ _ hc => by cases hc
  nodup := fun _ => List.nodup_nil
  exits := fun _ _ he => by cases he
  found := fun _ _ hw => by cases hw

section
variable (h : s.Inv)
include h

theorem Inv.exit_none {w : WaitCall} (hw : w ∈ s.wait p) : s.exit p = none := by
  by_contra hne
  obtain ⟨e, he⟩ := Option.ne_none_iff_exists'.mp hne
  rw [(h.exits p e he).2.1] at hw
  cases hw

theorem Inv.setWait (hexit : s.exit p = none) {call : Option WaitCall}
    (hasleep : ∀ w ∈ call, w.place = .asleep → s.Attended p w.pid)
    (hfound : ∀ w ∈ call, w.place = .sleep → w.pid ≠ 0 → ∃ c ∈ s.children p, (c : Int) = w.pid) :
    (s.setWait p call).Inv where
  safe := by
    intro q w hw hplace
    by_cases hq : q = p
    · subst hq
      have hw' : w ∈ call := by simpa [Processes.setWait] using hw
      exact ⟨(hasleep w hw' hplace).1, (hasleep w hw' hplace).2⟩
    · have hw' : w ∈ s.wait q := by simpa [Processes.setWait, hq] using hw
      exact ⟨(h.safe q w hw' hplace).1, (h.safe q w hw' hplace).2⟩
  known := h.known
  parent := h.parent
  nodup := h.nodup
  exits := by
    intro c e (he : e ∈ s.exit c)
    obtain ⟨hlt, hnone, hparent⟩ := h.exits c e he
    have hne : c ≠ p := by
      rintro rfl
      rw [hexit] at he
      cases he
    exact ⟨hlt, by simpa [Processes.setWait, hne] using hnone, hparent⟩
  found := by
    intro q w hw
    by_cases hq : q = p
    · subst hq
      exact hfound w (by simpa [Processes.setWait] using hw)
    · exact h.found q w (by simpa [Processes.setWait, hq] using hw)

theorem Inv.endWait (hexit : s.exit p = none) : (s.setWait p none).Inv :=
  h.setWait hexit (fun _ hw => by cases hw) (fun _ hw => by cases hw)

theorem Inv.waitReturns (hexit : s.exit p = none) (result : Int) (status : Option Int) :
    (s.waitReturns p result status).Inv := by
  have hend := h.endWait hexit
  refine ⟨fun q w hw hplace => ?_, hend.known, hend.parent, hend.nodup, hend.exits, hend.found⟩
  exact ⟨(hend.safe q w hw hplace).woken, (hend.safe q w hw hplace).child⟩

theorem Inv.reap (hwait : s.wait p = none) (c : Nat) :
    { s with children := Function.update s.children p ((s.children p).erase c) }.Inv := by
  have hsub : ∀ q, ∀ x ∈ Function.update s.children p ((s.children p).erase c) q, x ∈ s.children q := by
    intro q x hx
    by_cases hq : q = p
    · subst hq
      rw [Function.update_self] at hx
      exact List.mem_of_mem_erase hx
    · rwa [Function.update_of_ne hq] at hx
  have hother : ∀ q, ∀ w ∈ s.wait q, Function.update s.children p ((s.children p).erase c) q = s.children q := by
    intro q w hw
    refine Function.update_of_ne ?_ ..
    rintro rfl
    rw [hwait] at hw
    cases hw
  constructor
  · intro q w hw hplace
    obtain ⟨hwoken, hchild⟩ := h.safe q w hw hplace
    constructor
    · exact fun x hx => hwoken x (hsub q x hx)
    · show ∃ x ∈ Function.update s.children p _ q, _
      rwa [hother q w hw]
  · exact fun q x hx => h.known q x (hsub q x hx)
  · exact fun q x hx => h.parent q x (hsub q x hx)
  · intro q
    by_cases hq : q = p
    · subst hq
      show (Function.update s.children q _ q).Nodup
      rw [Function.update_self]
      exact (h.nodup q).erase c
    · show (Function.update s.children p _ q).Nodup
      rw [Function.update_of_ne hq]
      exact h.nodup q
  · intro x e he
    obtain ⟨hlt, hnone, hparent⟩ := h.exits x e he
    exact ⟨hlt, hnone, fun q hx => hparent q (hsub q x hx)⟩
  · intro q w hw
    show _ → _ → ∃ x ∈ Function.update s.children p _ q, _
    rw [hother q w hw]
    exact h.found q w hw

theorem Inv.scan (hexit : s.exit p = none) (pid : Int) : (s.scan p pid).Inv := by
  unfold Processes.scan
  cases hfind : (s.children p).find? fun c => s.terminated c && answers pid c with
  | some c => exact (h.waitReturns hexit c (some (s.exitcode c))).reap (Function.update_self ..) c
  | none =>
    dsimp only
    split_ifs with hnone
    · exact h.waitReturns hexit (-ESRCH) none
    · refine h.setWait hexit (fun w hw hplace => ?_) (fun w hw _ hpid => ?_)
      · obtain rfl := Option.some.inj hw
        cases hplace
      · obtain rfl := Option.some.inj hw
        simpa [hpid] using hnone

end

theorem rouse_cases (s : Processes) (p : Nat) (intr : Bool) :
    s.rouse p intr = s ∧ (∀ w ∈ s.wait p, w.place ≠ .asleep) ∨
      ∃ pid, s.wait p = some ⟨pid, .asleep⟩ ∧ s.rouse p intr = s.setWait p (some ⟨pid, .woken intr⟩) := by
  unfold rouse
  split
  · next pid hw => exact .inr ⟨pid, hw, rfl⟩
  · next hnot =>
    refine .inl ⟨rfl, ?_⟩
    rintro ⟨pid, _⟩ hw rfl
    exact hnot pid hw

theorem Inv.rouse (h : s.Inv) (p : Nat) (intr : Bool) : (s.rouse p intr).Inv := by
  rcases s.rouse_cases p intr with ⟨heq, -⟩ | ⟨pid, hw, heq⟩ <;> rw [heq]
  · exact h
  · refine h.setWait (h.exit_none hw) (fun w hw hplace => ?_) (fun w hw hplace => ?_)
    · obtain rfl := Option.some.inj hw
      cases hplace
    · obtain rfl := Option.some.inj hw
      cases hplace

theorem rouse_awake (p : Nat) (intr : Bool) : ∀ w ∈ (s.rouse p intr).wait p, w.place ≠ .asleep := by
  rcases s.rouse_cases p intr with ⟨heq, hawake⟩ | ⟨pid, -, heq⟩ <;> rw [heq]
  · exact hawake
  · intro w hw
    obtain rfl : (⟨pid, .woken intr⟩ : WaitCall) = w := by simpa [setWait] using hw
    exact fun hplace => by cases hplace

theorem Inv.waitStep (h : s.Inv) {w : WaitCall} (hw : w ∈ s.wait p) (hprompt : s.Prompt (.waiting p)) :
    (s.waitStep p w).Inv := by
  have hexit := h.exit_none hw
  unfold Processes.waitStep
  cases hplace : w.place with
  | scan => exact h.scan hexit w.pid
  | sleep =>
    obtain ⟨hnot, hzero⟩ := hprompt w hw hplace
    refine h.setWait hexit (fun w' hw' _ => ?_) (fun w' hw' hplace' => ?_)
    · obtain rfl := Option.some.inj hw'
      constructor
      · intro c hc hterm hans
        rw [hnot c hc hterm] at hans
        cases hans
      · by_cases hpid : w.pid = 0
        · obtain ⟨c, hc⟩ := List.exists_mem_of_ne_nil _ (hzero hpid)
          exact ⟨c, hc, by simp [answers, hpid]⟩
        · obtain ⟨c, hc, heq⟩ := h.found p w hw hplace hpid
          exact ⟨c, hc, by simp [answers, heq]⟩
    · obtain rfl := Option.some.inj hw'
      cases hplace'
  | asleep => exact h
  | woken intr =>
    cases intr with
    | true => exact h.waitReturns hexit (-EINTR) none
    | false =>
      refine h.setWait hexit (fun w' hw' hplace' => ?_) (fun w' hw' hplace' => ?_) <;>
      · obtain rfl := Option.some.inj hw'
        cases hplace'

theorem Inv.create (h : s.Inv) (hruns : s.Runs p) : (s.create p).Inv := by
  have hchild : ∀ q, ∀ x ∈ (s.create p).children q, x = s.next ∧ q = p ∨ x ∈ s.children q := by
    intro q x hx
    by_cases hq : q = p
    · subst hq
      have hx' : x ∈ s.next :: s.children q := by simpa [Processes.create] using hx
      exact (List.mem_cons.mp hx').imp_left fun heq => ⟨heq, rfl⟩
    · exact .inr (by simpa [Processes.create, hq] using hx)
  have hother : ∀ q, ∀ w ∈ s.wait q, (s.create p).children q = s.children q := by
    intro q w hw
    refine Function.update_of_ne ?_ ..
    rintro rfl
    rw [hruns.2.2.1] at hw
    cases hw
  have hold : ∀ q, ∀ x ∈ s.children q, x ≠ s.next := fun q x hx => Nat.ne_of_lt (h.known q x hx)
  constructor
  · intro q w hw hplace
    obtain ⟨hwoken, hchildren⟩ := h.safe q w hw hplace
    constructor
    · intro x hx hterm
      rw [hother q w hw] at hx
      exact hwoken x hx (by simpa [Processes.create, hold q x hx] using hterm)
    · rw [hother q w hw]
      exact hchildren
  · intro q x hx
    rcases hchild q x hx with ⟨rfl, -⟩ | hx
    · exact Nat.lt_succ_self _
    · exact Nat.lt_succ_of_lt (h.known q x hx)
  · intro q x hx
    rcases hchild q x hx with ⟨rfl, rfl⟩ | hx
    · exact Function.update_self ..
    · exact (Function.update_of_ne (hold q x hx) ..).trans (h.parent q x hx)
  · intro q
    by_cases hq : q = p
    · subst hq
      show (Function.update s.children q _ q).Nodup
      rw [Function.update_self]
      exact List.nodup_cons.mpr ⟨fun hmem => hold q _ hmem rfl, h.nodup q⟩
    · show (Function.update s.children p _ q).Nodup
      rw [Function.update_of_ne hq]
      exact h.nodup q
  · intro x e he
    obtain ⟨hlt, hnone, hparent⟩ := h.exits x e he
    refine ⟨Nat.lt_succ_of_lt hlt, hnone, fun q hx => ?_⟩
    rcases hchild q x hx with ⟨rfl, -⟩ | hx
    · exact absurd hlt (Nat.lt_irrefl _)
    · exact hparent q hx
  · intro q w hw
    rw [hother q w hw]
    exact h.found q w hw

theorem Inv.exit (h : s.Inv) (hruns : s.Runs c) (status : Int) :
    (s.setExit c (some ⟨status, s.parent c, false⟩)).Inv := by
  refine ⟨fun q w hw hplace => ?_, h.known, h.parent, h.nodup, fun x e he => ?_, h.found⟩
  · obtain ⟨hwoken, hchildren⟩ := h.safe q w hw hplace
    refine ⟨fun x hx hterm hans => ?_, hchildren⟩
    obtain ⟨y, e, he, hparent⟩ := hwoken x hx hterm hans
    refine ⟨y, e, ?_, hparent⟩
    have hne : y ≠ c := by
      rintro rfl
      rw [hruns.2.2.2] at he
      cases he
    simpa [setExit, hne] using he
  · by_cases hx : x = c
    · subst hx
      obtain rfl : (⟨status, s.parent x, false⟩ : ExitCall) = e := by simpa [setExit] using he
      exact ⟨hruns.1, hruns.2.2.1, fun q hmem => h.parent q x hmem⟩
    · exact h.exits x e (by simpa [setExit, hx] using he)

theorem Inv.exitWake (h : s.Inv) (he : e ∈ s.exit c) :
    ((s.rouse e.parent false).setExit c none).Inv := by
  have hr := h.rouse e.parent false
  have hawake := rouse_awake (s := s) e.parent false
  have hexit : (s.rouse e.parent false).exit = s.exit := by
    rcases s.rouse_cases e.parent false with ⟨heq, -⟩ | ⟨pid, -, heq⟩ <;> rw [heq]
    rfl
  refine ⟨fun q w hw hplace => ?_, hr.known, hr.parent, hr.nodup, fun x e' he' => ?_, hr.found⟩
  · obtain ⟨hwoken, hchildren⟩ := hr.safe q w hw hplace
    refine ⟨fun x hx hterm hans => ?_, hchildren⟩
    obtain ⟨y, e', he', rfl⟩ := hwoken x hx hterm hans
    refine ⟨y, e', ?_, rfl⟩
    -- The process that sleeps is another one, and so is the exit that will wake it.
    have hne : y ≠ c := by
      rintro rfl
      rw [hexit] at he'
      obtain rfl := Option.mem_unique he he'
      exact hawake w hw hplace
    simpa [setExit, hne] using he'
  · by_cases hx : x = c
    · subst hx
      simp [setExit] at he'
    · exact hr.exits x e' (by simpa [setExit, hx] using he')

theorem Inv.terminate (h : s.Inv) (he : e ∈ s.exit c) :
    { s.setExit c (some { e with terminated := true }) with
      exitcode := Function.update s.exitcode c e.status
      terminated := Function.update s.terminated c true }.Inv := by
  obtain ⟨hlt, hnone, hparent⟩ := h.exits c e he
  have hcoming : ∀ q, s.WakeComing q → ∃ y, ∃ e' ∈ Function.update s.exit c (some { e with terminated := true }) y,
      e'.parent = q := by
    rintro q ⟨y, e', he', rfl⟩
    by_cases hy : y = c
    · subst hy
      obtain rfl := Option.mem_unique he he'
      exact ⟨y, _, Function.update_self .., rfl⟩
    · exact ⟨y, e', by rwa [Function.update_of_ne hy], rfl⟩
  refine ⟨fun q w hw hplace => ?_, h.known, h.parent, h.nodup, fun x e' he' => ?_, h.found⟩
  · obtain ⟨hwoken, hchildren⟩ := h.safe q w hw hplace
    refine ⟨fun x hx hterm hans => ?_, hchildren⟩
    by_cases hxc : x = c
    · subst hxc
      exact hcoming q ⟨x, e, he, hparent q hx⟩
    · refine hcoming q (hwoken x hx ?_ hans)
      simpa [Function.update_of_ne hxc] using hterm
  · by_cases hx : x = c
    · subst hx
      obtain rfl : { e with terminated := true } = e' := by simpa [setExit] using he'
      exact ⟨hlt, hnone, hparent⟩
    · exact h.exits x e' (by simpa [setExit, hx] using he')

section Adoption

variable {g q : Nat} {rest : List Nat} {parent : Nat} {x : Nat}

theorem mem_adopt (hx : x ∈ (s.adopt c g rest parent).children q) :
    x = g ∧ q = parent ∨ x ∈ Function.update s.children c rest q := by
  by_cases hq : q = parent
  · subst hq
    have hx' : x ∈ Function.update s.children c rest q ++ [g] := by simpa [adopt] using hx
    rcases List.mem_append.mp hx' with hx' | hx'
    · exact .inr hx'
    · exact .inl ⟨List.mem_singleton.mp hx', rfl⟩
  · exact .inr (by simpa [adopt, hq] using hx)

theorem subset_adopt (hq : q ≠ c) (hx : x ∈ s.children q) : x ∈ (s.adopt c g rest parent).children q := by
  by_cases hp : q = parent
  · subst hp
    simp [adopt, hq, hx]
  · simpa [adopt, hp, hq] using hx

theorem Inv.mem_rest (h : s.Inv) (hc : s.children c = g :: rest)
    (hx : x ∈ Function.update s.children c rest q) : x ∈ s.children q ∧ x ≠ g := by
  by_cases hq : q = c
  · subst hq
    rw [Function.update_self] at hx
    have hnodup := h.nodup q
    rw [hc, List.nodup_cons] at hnodup
    refine ⟨by rw [hc]; exact List.mem_cons_of_mem _ hx, ?_⟩
    rintro rfl
    exact hnodup.1 hx
  · rw [Function.update_of_ne hq] at hx
    refine ⟨hx, ?_⟩
    rintro rfl
    have h1 := h.parent q x hx
    have h2 := h.parent c x (by rw [hc]; exact List.mem_cons_self ..)
    exact hq (h1.symm.trans h2)

theorem Inv.adopt (h : s.Inv) {e : ExitCall} (he : e ∈ s.exit c) (hc : s.children c = g :: rest)
    (hg : s.exit g = none) : (s.adopt c g rest e.parent).Inv := by
  have hnowait : ∀ q, ∀ w ∈ s.wait q, q ≠ c := by
    rintro q w hw rfl
    rw [h.exit_none hw] at he
    cases he
  have hgc : g ∈ s.children c := by rw [hc]; exact List.mem_cons_self ..
  constructor
  · intro q w hw hplace
    obtain ⟨hwoken, x, hx, hans⟩ := h.safe q w hw hplace
    refine ⟨fun y hy hterm hy' => ?_, x, subset_adopt (hnowait q w hw) hx, hans⟩
    rcases mem_adopt hy with ⟨-, rfl⟩ | hy
    · exact ⟨c, e, he, rfl⟩
    · exact hwoken y (h.mem_rest hc hy).1 hterm hy'
  · intro q x hx
    rcases mem_adopt hx with ⟨rfl, -⟩ | hx
    · exact h.known c x hgc
    · exact h.known q x (h.mem_rest hc hx).1
  · intro q x hx
    rcases mem_adopt hx with ⟨rfl, rfl⟩ | hx
    · exact Function.update_self ..
    · obtain ⟨hmem, hne⟩ := h.mem_rest hc hx
      exact (Function.update_of_ne hne ..).trans (h.parent q x hmem)
  · intro q
    have hrest : (Function.update s.children c rest q).Nodup := by
      by_cases hq : q = c
      · subst hq
        rw [Function.update_self]
        have hnodup := h.nodup q
        rw [hc] at hnodup
        exact (List.nodup_cons.mp hnodup).2
      · rw [Function.update_of_ne hq]
        exact h.nodup q
    by_cases hq : q = e.parent
    · subst hq
      show (Function.update (Function.update s.children c rest) e.parent _ e.parent).Nodup
      rw [Function.update_self, List.nodup_append]
      refine ⟨hrest, by simp, fun x hx y hy => ?_⟩
      obtain rfl := List.mem_singleton.mp hy
      exact (h.mem_rest hc hx).2
    · show (Function.update (Function.update s.children c rest) e.parent _ q).Nodup
      rwa [Function.update_of_ne hq]
  · intro x e' he'
    obtain ⟨hlt, hnone, hparent⟩ := h.exits x e' he'
    refine ⟨hlt, hnone, fun q hx => ?_⟩
    rcases mem_adopt hx with ⟨rfl, -⟩ | hx
    · exact absurd (Option.mem_def.mp he') (by rw [show (s.adopt c x rest e.parent).exit = s.exit from rfl, hg]; simp)
    · exact hparent q (h.mem_rest hc hx).1
  · intro q w hw hplace hpid
    obtain ⟨x, hx, heq⟩ := h.found q w hw hplace hpid
    exact ⟨x, subset_adopt (hnowait q w hw) hx, heq⟩

end Adoption

theorem Inv.exitStep (h : s.Inv) (he : e ∈ s.exit c) (hprompt : s.Prompt (.exiting c)) :
    (s.exitStep c e).Inv := by
  unfold Processes.exitStep
  cases hterm : e.terminated with
  | true => exact h.exitWake he
  | false =>
    have hhead := hprompt e he hterm
    cases hc : s.children c with
    | nil => exact h.terminate he
    | cons g rest => exact h.adopt he hc (hhead g (by rw [hc]; rfl))

theorem Inv.step (h : s.Inv) {op : ProcessOp} (hen : s.Enabled op) (hprompt : s.Prompt op) : (s.step op).Inv := by
  cases op with
  | create p => exact h.create hen
  | wait p pid =>
    refine h.setWait hen.2.2.2 (fun w hw hplace => ?_) (fun w hw hplace => ?_) <;>
    · obtain rfl := Option.some.inj hw
      cases hplace
  | exit c status => exact h.exit hen.2 status
  | waiting p =>
    cases hw : s.wait p with
    | none => exact absurd hw hen
    | some w =>
      simp only [Processes.step, hw, Option.elim_some]
      exact h.waitStep hw hprompt
  | exiting c =>
    cases he : s.exit c with
    | none => exact absurd he hen
    | some e =>
      simp only [Processes.step, he, Option.elim_some]
      exact h.exitStep he hprompt
  | interrupt p => exact h.rouse p true

/-- In every run of waits and exits whose steps are prompt, no parent ever sleeps in vain. -/
theorem waiting_parents_safe (ops : List ProcessOp)
    (hops : Steps.Along step (fun s op => s.Enabled op ∧ s.Prompt op) Processes.init ops) :
    Steps.Along step (fun s op => (s.step op).Safe) Processes.init ops :=
  Steps.Along.imp (I := Inv) (fun _ _ h hop => h.step hop.1 hop.2) (fun _ _ h hop => (h.step hop.1 hop.2).safe)
    Inv.init hops

/-- The first process waits for its child, which leaves a child behind, and gets the status of the one and then of the
other. -/
theorem waiting_parents_adoption :
    Steps.Along step (fun s op => (s.step op).Safe) Processes.init
      [.create 0, .create 1, .wait 0 0, .waiting 0, .waiting 0, .exit 1 7, .exiting 1, .exiting 1, .exiting 1,
        .waiting 0, .waiting 0, .wait 0 2, .waiting 0, .waiting 0, .exit 2 8, .exiting 2, .exiting 2, .waiting 0,
        .waiting 0] :=
  waiting_parents_safe _ (by decide +kernel)

/-- The child exits after the scan of the parent and before it sleeps. -/
def lateExit : List ProcessOp :=
  [.create 0, .wait 0 1, .waiting 0, .exit 1 7, .exiting 1, .exiting 1, .waiting 0]

def childless : List ProcessOp := [.wait 0 0, .waiting 0, .waiting 0]

/-- In the first run the parent sleeps for good while its child has terminated; in the second one it sleeps without a
child. -/
theorem waiting_parents_stuck :
    (Steps.Along step Enabled Processes.init lateExit ∧
      (lateExit.foldl step Processes.init).wait 0 = some ⟨1, .asleep⟩ ∧
      (lateExit.foldl step Processes.init).children 0 = [1] ∧
      (lateExit.foldl step Processes.init).terminated 1 = true ∧
      ∀ c, (lateExit.foldl step Processes.init).exit c = none) ∧
    Steps.Along step Enabled Processes.init childless ∧
      (childless.foldl step Processes.init).wait 0 = some ⟨0, .asleep⟩ ∧
      (childless.foldl step Processes.init).children 0 = [] := by
  refine ⟨⟨by decide +kernel, by decide +kernel, by decide +kernel, by decide +kernel, fun c => ?_⟩, by decide +kernel,
    by decide +kernel, by decide +kernel⟩
  show Function.update (Function.update (Function.update (fun _ => none) 1 _) 1 _) 1 none c = none
  rw [Function.update_idem, Function.update_idem, Function.update_eq_self_iff.mpr rfl]

end Novino.Sched.Processes
