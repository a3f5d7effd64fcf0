import Mathlib.Data.List.Chain
import Mathlib.Data.List.Perm.Basic
import Novino.Yash.Parse

/-! The shell runs a command list: which commands run, which processes are waited for, and what becomes of the
    descriptors. -/

namespace Novino.Yash

variable {k : Kernel} {p : Parser} {cmds cs : List Args} {c : Args} {w : World} {op s prev : Sep} {code : Int}
  {fds : List Nat} (i : Nat)

theorem Parser.parsed_token (h : ∀ c ∈ p.cmd :: p.cmds, c.Parsed) (f : Flags) (tok : List Char) :
    ∀ c ∈ (p.token f tok).1.cmd :: (p.token f tok).1.cmds, c.Parsed := by
  obtain ⟨hcmd, hcmds⟩ := List.forall_mem_cons.mp h
  unfold token word fail
  split
  · exact h
  · dsimp only
    split
    · split
      · exact h
      · exact h
      · split
        · exact h
        · simp only [List.forall_mem_cons, List.forall_mem_append]
          exact ⟨⟨rfl, rfl, rfl, rfl⟩, hcmds, hcmd, by simp⟩
    · have hcons {d : Args} (hd : d.Parsed) : ∀ c ∈ d :: p.cmds, c.Parsed := List.forall_mem_cons.mpr ⟨hd, hcmds⟩
      split
      · split <;> exact hcons hcmd
      · split <;> exact hcons hcmd
      · exact hcons hcmd

theorem Parser.parsed_loop (fuel : Nat) (h : ∀ c ∈ p.cmd :: p.cmds, c.Parsed) (f : Flags)
    (str : List Char) :
    ∀ c ∈ (p.loop fuel f str).1.cmd :: (p.loop fuel f str).1.cmds, c.Parsed := by
  induction fuel generalizing p f str with
  | zero => exact h
  | succ fuel ih =>
    unfold loop
    split
    · exact h
    · dsimp only
      split
      · exact parsed_token h _ _
      · exact ih (parsed_token h _ _) _ _

theorem accepted_of_checks {prev : Option Args} (hp : ∀ c ∈ cmds, c.Parsed)
    (h : checks prev cmds = true) : Accepted cmds := by
  induction cmds generalizing prev with
  | nil => simp [Accepted]
  | cons c rest ih =>
    unfold checks at h
    simp only [Bool.and_eq_true, Bool.or_eq_true, decide_eq_true_eq] at h
    obtain ⟨⟨hpipe, hlast⟩, hrest⟩ := h
    obtain ⟨hc, hp⟩ := List.forall_mem_cons.mp hp
    obtain ⟨-, hl, ho, hi⟩ := ih hp hrest
    have hsep (hs : c.sep = .pipe) := hpipe.resolve_left fun hne => hne hs
    refine ⟨List.forall_mem_cons.mpr ⟨hc, hp⟩, ?_, List.forall_mem_cons.mpr ⟨fun hs => ?_, ho⟩,
      hi.cons fun d hd hs => ?_⟩
    · cases rest with
      | nil => simpa using hlast
      | cons d rest => simpa using hl
    · simpa using (hsep hs).1.1
    · have := (hsep hs).2
      rw [Option.mem_def] at hd
      simpa [hd] using this

/-- What is shown about accepted lists holds for the lists that `parse_cmdline` returns. -/
theorem parseCmdline_accepted {str : List Char} (h : parseCmdline str = some cmds) :
    Accepted cmds := by
  have hp := Parser.parsed_loop (2 * str.length + 1) (p := {}) (by simp [Args.Parsed]) {} str
  obtain ⟨hcmd, hcmds⟩ := List.forall_mem_cons.mp hp
  unfold parseCmdline parse at h
  dsimp only at h
  split at h
  · cases h
  · obtain ⟨hchecks, heq⟩ := Option.ite_none_right_eq_some.mp h
    obtain rfl := Option.some.inj heq
    refine accepted_of_checks ?_ hchecks
    split
    · exact hcmds
    · exact List.forall_mem_append.mpr ⟨hcmds, by simpa using hcmd⟩

def outcome (k : Kernel) (i : Nat) (c : Args) : Outcome :=
  (runBuiltin k i c).getD (.status ((k.spawn i).elim 127 Prod.snd))

def process (k : Kernel) (i : Nat) (c : Args) : Option Nat :=
  if (runBuiltin k i c).isSome then none else (k.spawn i).map Prod.fst

def World.ran (w : World) (i : Nat) (wait : Bool) (p : Option Nat) : World :=
  { w with
    runs := w.runs ++ [(i, wait)], started := w.started ++ p.toList
    waited := w.waited ++ if wait then p.toList else [] }

theorem runCommand_eq (w : World) (c : Args) : ∃ o, runCommand k i w c =
    (w.ran i c.wait (process k i c), { c with pid := (process k i c).getD c.pid }, o) ∧
      ∀ stops, (c.wait = true ∨ ∀ code, stops code = false) → o.flow stops = (outcome k i c).flow stops := by
  unfold runCommand process outcome World.ran
  cases runBuiltin k i c with
  | some o => exact ⟨o, by simp, fun _ _ => rfl⟩
  | none =>
    cases k.spawn i with
    | none => exact ⟨_, by simp, fun _ _ => rfl⟩
    | some p =>
      cases hw : c.wait with
      | true => exact ⟨_, by simp [World.wait], fun _ _ => rfl⟩
      | false => exact ⟨.status 0, by simp, fun stops h => by simp [Outcome.flow, h.resolve_left (by simp)]⟩

def opens (k : Kernel) (i : Nat) (c : Args) : Bool := (!c.ofn.isSome || k.opensOut i) && (!c.ifn.isSome || k.opensIn i)

theorem openInput_eq (w : World) (c : Args) : ∃ next ifd,
    openInput k i w c = ({ w with next := next }, { c with ifd := ifd }, !c.ifn.isSome || k.opensIn i) := by
  unfold openInput
  cases c.ifn.isSome <;> cases k.opensIn i <;> exact ⟨_, _, rfl⟩

theorem openFiles_eq (w : World) (c : Args) : ∃ next ofd ifd,
    openFiles k i w c = ({ w with next := next }, { c with ofd := ofd, ifd := ifd }, opens k i c) := by
  unfold openFiles opens
  cases c.ofn.isSome with
  | false =>
    obtain ⟨next, ifd, h⟩ := openInput_eq (k := k) i w c
    exact ⟨next, c.ofd, ifd, h⟩
  | true =>
    cases k.opensOut i with
    | false => exact ⟨_, _, _, rfl⟩
    | true =>
      obtain ⟨next, ifd, h⟩ := openInput_eq (k := k) i w.enter { c with ofd := w.next }
      exact ⟨next, _, ifd, h⟩

def runs (k : Kernel) (i : Nat) (c : Args) : Bool := c.sep ≠ .background && (c.sep ≠ .pipe || k.pipes i)

def flow (k : Kernel) (i : Nat) (c : Args) : Flow :=
  match c.sep with
  | .background => .next
  | .pipe => if k.pipes i then (outcome k i c).flow Sep.pipe.stops else .stop
  | sep => (outcome k i c).flow sep.stops

theorem dispatch_eq (w : World) (hw : c.wait = true) (hp : c.pid = 0) : ∃ next ofd rd,
    dispatch k i w c =
      ({ (if runs k i c then w.ran i (c.sep ≠ .pipe) (process k i c) else w) with next := next },
        { c with
          pid := if runs k i c then (process k i c).getD 0 else 0
          wait := !(c.sep = .pipe && k.pipes i), ofd := ofd },
        rd, flow k i c) := by
  obtain ⟨sep, argv, ofn, ifn, pid, wait, ofd, ifd⟩ := c
  obtain rfl : wait = true := hw
  obtain rfl : pid = 0 := hp
  unfold dispatch flow runs
  by_cases hs : sep = .background
  · subst hs
    exact ⟨_, _, _, rfl⟩
  by_cases hpipe : sep = .pipe
  · subst hpipe
    cases k.pipes i with
    | false => exact ⟨_, _, _, rfl⟩
    | true =>
      let c : Args := { sep := .pipe, argv, ofn, ifn, ifd, wait := false, ofd := w.next + 1 }
      obtain ⟨o, h, ho⟩ := runCommand_eq (k := k) i w.enter.enter c
      have hflow : o.flow Sep.pipe.stops = (outcome k i { c with wait := true, ofd }).flow _ := ho _ (.inr fun _ => rfl)
      dsimp only
      rw [if_pos rfl, h]
      dsimp only
      rw [hflow]
      exact ⟨_, _, _, rfl⟩
  · let c : Args := { sep, argv, ofn, ifn, ofd, ifd }
    obtain ⟨o, h, ho⟩ := runCommand_eq (k := k) i w c
    cases sep with
    | background => exact absurd rfl hs
    | pipe => exact absurd rfl hpipe
    | _ =>
      dsimp only
      rw [h]
      dsimp only
      rw [ho _ (.inl rfl)]
      exact ⟨_, _, _, rfl⟩

/-- The commands of a list that are run, with their numbers, and whether `execute` returns. -/
def course (k : Kernel) : Nat → List Args → List (Nat × Args) × Bool
  | _, [] => ([], true)
  | i, c :: rest =>
    let here := if opens k i c && runs k i c then [(i, c)] else []
    match if opens k i c then flow k i c else .stop with
    | .stop => (here, true)
    | .exit => (here, false)
    | .next => (here ++ (course k (i + 1) rest).1, (course k (i + 1) rest).2)

def Args.piped (c : Args) : Bool := c.sep = .pipe

def processes (k : Kernel) (p : Args → Bool) (cs : List (Nat × Args)) : List Nat :=
  (cs.filter fun x => p x.2).flatMap fun x => (process k x.1 x.2).toList

def pending (cs : List Args) : List Nat := (cs.filter fun c => !c.wait).map (·.pid)

structure Follows (k : Kernel) (w : World) (cs : List (Nat × Args)) (w' : World) (left : List Args) : Prop where
  runs : w'.runs = w.runs ++ cs.map fun x => (x.1, !x.2.piped)
  started : w'.started = w.started ++ processes k (fun _ => true) cs
  waited : w'.waited = w.waited ++ processes k (!·.piped) cs
  pending : pending left = (cs.filter fun x => x.2.piped).map fun x => (process k x.1 x.2).getD 0

theorem Follows.append {w₁ w₂ : World} {cs₁ cs₂ : List (Nat × Args)} {l₁ l₂ : List Args} (h₁ : Follows k w cs₁ w₁ l₁)
    (h₂ : Follows k w₁ cs₂ w₂ l₂) : Follows k w (cs₁ ++ cs₂) w₂ (l₁ ++ l₂) where
  runs := by simp [h₂.runs, h₁.runs]
  started := by simp [h₂.started, h₁.started, processes]
  waited := by simp [h₂.waited, h₁.waited, processes]
  pending := by
    have := h₁.pending
    have := h₂.pending
    simp_all [Yash.pending]

theorem Follows.none {w' : World} {l : List Args} (h : ∀ c ∈ l, c.wait = true) (hruns : w'.runs = w.runs)
    (hstarted : w'.started = w.started) (hwaited : w'.waited = w.waited) : Follows k w [] w' l where
  runs := by simp [hruns]
  started := by simp [hstarted, processes]
  waited := by simp [hwaited, processes]
  pending := by
    rw [Yash.pending, List.filter_nil, List.map_nil, List.map_eq_nil_iff, List.filter_eq_nil_iff]
    intro c hc
    simp [h c hc]

theorem closeFiles_eq (w : World) (c : Args) : ∃ closed, closeFiles w c = { w with closed } := by
  unfold closeFiles World.close
  split <;> split <;> exact ⟨_, rfl⟩

theorem closeFiles_follows (w : World) (c : Args) : Follows k w [] (closeFiles w c) [] := by
  obtain ⟨closed, h⟩ := closeFiles_eq w c
  rw [h]
  exact Follows.none (fun _ h => absurd h List.not_mem_nil) rfl rfl rfl

theorem dispatch_follows (w : World) (hc : c.Parsed) (ofd ifd : Nat) :
    ∃ w₁ c₁ rd, dispatch k i w { c with ofd, ifd } = (w₁, c₁, rd, flow k i c) ∧
      Follows k w (if runs k i c then [(i, c)] else []) w₁ [c₁] := by
  obtain ⟨next, ofd', rd, h⟩ := dispatch_eq (k := k) (c := { c with ofd, ifd }) i w hc.2.1 hc.1
  refine ⟨_, _, rd, h, ?_⟩
  have hruns : runs k i { c with ofd, ifd } = runs k i c := rfl
  have hproc : process k i { c with ofd, ifd } = process k i c := rfl
  rw [hruns, hproc]
  unfold runs
  by_cases hb : c.sep = .background
  · constructor <;> simp [hb, processes, pending]
  by_cases hs : c.sep = .pipe
  · cases k.pipes i <;> constructor <;> simp [hs, World.ran, processes, pending, Args.piped]
  · constructor <;> simp [hs, hb, World.ran, processes, pending, Args.piped]

theorem loop_follows (rd : Option Nat) (w : World) (h : ∀ c ∈ cmds, c.Parsed) :
    Follows k w (course k i cmds).1 (loop k i rd w cmds).1 (loop k i rd w cmds).2.1 ∧
      (loop k i rd w cmds).2.2 = (course k i cmds).2 := by
  induction cmds generalizing i rd w with
  | nil => exact ⟨Follows.none (fun _ h => absurd h List.not_mem_nil) rfl rfl rfl, rfl⟩
  | cons c rest ih =>
    obtain ⟨hc, hrest⟩ := List.forall_mem_cons.mp h
    have hwait : ∀ d ∈ rest, d.wait = true := fun d hd => (hrest d hd).2.1
    obtain ⟨next, ofd, ifd, hopen⟩ := openFiles_eq (k := k) i w { c with ifd := rd.getD c.ifd }
    have hopens : opens k i { c with ifd := rd.getD c.ifd } = opens k i c := rfl
    unfold loop course
    rw [hopen, hopens]
    cases opens k i c with
    | false => exact ⟨Follows.none (List.forall_mem_cons.mpr ⟨hc.2.1, hwait⟩) rfl rfl rfl, rfl⟩
    | true =>
      obtain ⟨w₁, c₁, rd', hdis, hone⟩ := dispatch_follows (k := k) i { w with next } hc ofd ifd
      dsimp only
      rw [hdis, if_pos rfl]
      have hleft := hone.append (Follows.none (k := k) hwait rfl rfl rfl)
      rw [List.append_nil] at hleft
      cases flow k i c with
      | stop => exact ⟨⟨hleft.runs, hleft.started, hleft.waited, hleft.pending⟩, rfl⟩
      | exit => exact ⟨⟨hleft.runs, hleft.started, hleft.waited, hleft.pending⟩, rfl⟩
      | next =>
        obtain ⟨hf, hb⟩ := ih (i + 1) rd' (closeFiles w₁ c₁) hrest
        have hall := hone.append ((closeFiles_follows w₁ c₁).append hf)
        have hclosed (left : List Args) : pending ({ c₁ with ofd := 1, ifd := 0 } :: left) = pending (c₁ :: left) := by
          cases hw : c₁.wait <;> simp [pending, hw]
        exact ⟨⟨hall.runs, hall.started, hall.waited, (hclosed _).trans hall.pending⟩, hb⟩

theorem finish_eq (w : World) (cs : List Args) : (finish w cs).runs = w.runs ∧ (finish w cs).started = w.started ∧
    (finish w cs).waited = w.waited ++ pending cs := by
  induction cs generalizing w with
  | nil => exact ⟨rfl, rfl, (List.append_nil _).symm⟩
  | cons c cs ih =>
    obtain ⟨closed, h⟩ := closeFiles_eq w c
    unfold finish
    rw [h]
    cases hw : c.wait <;> simp [ih, pending, hw, World.wait]

theorem execute_course (h : ∀ c ∈ cmds, c.Parsed) :
    (execute k cmds).1.runs = (course k 0 cmds).1.map (fun x => (x.1, !x.2.piped)) ∧
      (execute k cmds).1.started = processes k (fun _ => true) (course k 0 cmds).1 ∧
      (execute k cmds).1.waited = processes k (!·.piped) (course k 0 cmds).1 ++ if (course k 0 cmds).2 then
        ((course k 0 cmds).1.filter fun x => x.2.piped).map fun x => (process k x.1 x.2).getD 0 else [] := by
  obtain ⟨hf, hb⟩ := loop_follows (k := k) 0 none { next := k.next } h
  unfold execute
  rcases hl : loop k 0 none { next := k.next } cmds with ⟨w, left, b⟩
  rw [hl] at hf hb
  have hruns := hf.runs
  have hstarted := hf.started
  have hwaited := hf.waited
  dsimp only at hb hruns hstarted hwaited
  rw [← hb]
  cases b with
  | false => simp [hruns, hstarted, hwaited]
  | true => simp [finish_eq, hruns, hstarted, hwaited, hf.pending]

/-! ### The usual meaning -/

/-- A command behind the separator runs, if `ran` says whether the one before it was run and `status` is the last
status. -/
def Sep.goes (ran : Bool) (status : Int) : Sep → Bool
  | seq | background => true
  | andThen => status == 0
  | orElse => status != 0
  | pipe => ran

/-- The commands that the usual meaning of the separators asks for, and whether each is waited for. The status of a
pipeline is that of its last command. -/
def usual (k : Kernel) (i : Nat) (prev : Sep) (ran : Bool) (status : Int) : List Args → List (Nat × Bool)
  | [] => []
  | c :: rest =>
    if prev.goes ran status then
      (i, c.sep ≠ .pipe && c.sep ≠ .background) :: match outcome k i c with
        | .exit => []
        | .status code => usual k (i + 1) c.sep true code rest
    else usual k (i + 1) c.sep false status rest

/-- No command that is reached is in the background, and where the loop is left, the commands that follow are all
    skipped. -/
def Regular (k : Kernel) : Nat → List Args → Prop
  | _, [] => True
  | i, c :: rest => c.sep ≠ .background ∧ match outcome k i c with
    | .exit => True
    | .status code =>
      if c.sep.stops code then ∀ d ∈ rest.dropLast, d.sep = c.sep ∨ d.sep = .pipe else Regular k (i + 1) rest

theorem Sep.goes_of_stops (h : op.stops code = true) (ran : Bool) :
    s.goes ran code = (s ≠ op && (s ≠ .pipe || ran)) := by
  cases op <;> cases s <;> simp_all [stops, goes]

theorem Sep.goes_of_not_stops (h : s.stops code = false) : s.goes true code = true := by
  cases s <;> simp_all [stops, goes]

theorem usual_skips (h : op.stops code = true) (i : Nat) {ran : Bool}
    (hprev : prev.goes ran code = false) (cs : List Args) :
    usual k i prev ran code cs = [] ↔ ∀ d ∈ cs.dropLast, d.sep = op ∨ d.sep = .pipe := by
  induction cs generalizing i prev ran with
  | nil => simp [usual]
  | cons c rest ih =>
    unfold usual
    rw [if_neg (by simp [hprev])]
    cases rest with
    | nil => simp [usual]
    | cons d rest =>
      rw [List.dropLast_cons_cons, List.forall_mem_cons]
      cases hgo : c.sep.goes false code with
      | false =>
        rw [ih (i + 1) hgo]
        rw [Sep.goes_of_stops h] at hgo
        exact (and_iff_right (by simpa [or_iff_not_imp_left] using hgo)).symm
      | true =>
        unfold usual
        rw [if_pos hgo]
        rw [Sep.goes_of_stops h] at hgo
        simp_all

theorem le_of_mem_course {i : Nat} : ∀ x ∈ (course k i cs).1, i ≤ x.1 := by
  induction cs generalizing i with
  | nil => exact fun x hx => absurd hx List.not_mem_nil
  | cons c rest ih =>
    have hhere : ∀ x ∈ (if opens k i c && runs k i c then [(i, c)] else []), i ≤ x.1 := by
      intro x hx
      split at hx <;> simp_all
    intro x hx
    unfold course at hx
    dsimp only at hx
    split at hx
    · exact hhere x hx
    · exact hhere x hx
    · rcases List.mem_append.mp hx with hx | hx
      · exact hhere x hx
      · exact Nat.le_of_succ_le (ih x hx)

theorem course_usual_iff (hopen : ∀ i c, opens k i c = true) (hpipe : ∀ i, k.pipes i = true) (i : Nat)
    {ran : Bool} {status : Int} (hgo : prev.goes ran status = true) (cs : List Args) :
    (course k i cs).1.map (fun x => (x.1, !x.2.piped)) = usual k i prev ran status cs ↔ Regular k i cs := by
  induction cs generalizing i prev ran status with
  | nil => simp [course, usual, Regular]
  | cons c rest ih =>
    unfold course usual Regular
    rw [hopen, if_pos hgo]
    by_cases hb : c.sep = .background
    · -- the command is not run, and the numbers of those behind it are greater
      refine iff_of_false (fun heq => ?_) fun h => h.1 hb
      have hmem := heq ▸ List.mem_cons_self
      simp only [flow, runs, hb, if_pos, ne_eq, not_true, decide_false, Bool.false_and, Bool.and_false,
        Bool.false_eq_true,
        if_false, List.nil_append, List.mem_map, Prod.mk.injEq] at hmem
      obtain ⟨x, hx, hi, -⟩ := hmem
      have := le_of_mem_course x hx
      omega
    · have hflow : flow k i c = (outcome k i c).flow c.sep.stops := by
        cases hs : c.sep <;> simp_all [flow]
      have hruns : runs k i c = true := by simp [runs, hb, hpipe]
      rw [hruns, if_pos rfl, hflow, if_pos (by rfl)]
      cases outcome k i c with
      | exit => simp [Outcome.flow, hb, Args.piped]
      | status code =>
        cases hstop : c.sep.stops code with
        | true =>
          have hskips : c.sep.goes true code = false := by simp [Sep.goes_of_stops hstop]
          simp [Outcome.flow, hb, Args.piped, hstop, ← usual_skips (k := k) hstop (i + 1) hskips rest]
        | false => simp [Outcome.flow, hb, Args.piped, hstop, ← ih (i + 1) (Sep.goes_of_not_stops hstop)]

/-- `execute` runs and waits for the commands that the usual meaning of the separators asks for, exactly if it reaches
none in the background and, where a status ends the loop, only commands that are to be skipped follow. -/
theorem execute_usual_iff (hopen : ∀ i, k.opensOut i = true ∧ k.opensIn i = true) (hpipe : ∀ i, k.pipes i = true)
    (h : Accepted cmds) :
    (execute k cmds).1.runs = usual k 0 .seq true 0 cmds ↔ Regular k 0 cmds := by
  rw [(execute_course h.1).1]
  exact course_usual_iff (fun i c => by simp [opens, hopen i]) hpipe 0 rfl cmds

def bare : Kernel := { next := 3, builtin := fun _ => 0, spawn := fun _ => none }

def TRUE : List Char := ['t', 'r', 'u', 'e']

def FALSE : List Char := ['f', 'a', 'l', 's', 'e']

theorem execute_usual_both : (execute bare [{ sep := .andThen, argv := [TRUE] }, { argv := [FALSE] }]).1.runs =
    usual bare 0 .seq true 0 [{ sep := .andThen, argv := [TRUE] }, { argv := [FALSE] }] :=
  (execute_usual_iff (fun _ => ⟨rfl, rfl⟩) (fun _ => rfl) (by simp [Accepted, Args.Parsed])).mpr
    ⟨by decide, by decide, trivial⟩

/-- `false && true; true`: the shell leaves the whole line behind a failed command, and the last one is not run. -/
theorem execute_leaves_rest : Accepted [{ sep := .andThen, argv := [FALSE] }, { argv := [TRUE] }, { argv := [TRUE] }] ∧
    (execute bare [{ sep := .andThen, argv := [FALSE] }, { argv := [TRUE] }, { argv := [TRUE] }]).1.runs ≠
      usual bare 0 .seq true 0 [{ sep := .andThen, argv := [FALSE] }, { argv := [TRUE] }, { argv := [TRUE] }] :=
  ⟨by simp [Accepted, Args.Parsed], by decide⟩

theorem perm_processes (k : Kernel) (cs : List (Nat × Args)) :
    (processes k (!·.piped) cs ++ processes k (·.piped) cs).Perm (processes k (fun _ => true) cs) := by
  unfold processes
  rw [← List.flatMap_append, List.filter_true]
  refine List.Perm.flatMap_right _ ?_
  simpa using (List.filter_append_perm (fun x : Nat × Args => !x.2.piped) cs)

/-- Each piped command has a process to wait for, or none of them has one when the shell exits. -/
theorem perm_pending_iff (hpid : ∀ i p, k.spawn i = some p → p.1 ≠ 0) (returns : Bool) (cs : List (Nat × Args)) :
    (if returns then (cs.filter fun x => x.2.piped).map fun x => (process k x.1 x.2).getD 0 else []).Perm
      (processes k (·.piped) cs) ↔ ∀ x ∈ cs, x.2.piped = true → (process k x.1 x.2).isSome = returns := by
  cases returns with
  | false => simp [processes, List.nil_perm]
  | true =>
    constructor
    · intro hperm x hx hpiped
      by_contra hnone
      rw [Bool.not_eq_true, Option.isSome_eq_false_iff, Option.isNone_iff_eq_none] at hnone
      have hzero : 0 ∈ processes k (·.piped) cs := hperm.subset
        (List.mem_map.mpr ⟨x, List.mem_filter.mpr ⟨hx, hpiped⟩, by rw [hnone]; rfl⟩)
      obtain ⟨y, -, hy⟩ := List.mem_flatMap.mp hzero
      simp only [process, Option.mem_toList] at hy
      split at hy
      · cases hy
      · obtain ⟨p, hp, h0⟩ := Option.map_eq_some_iff.mp hy
        exact hpid _ p hp h0
    · intro hall
      refine List.Perm.of_eq ?_
      rw [if_pos rfl, processes, List.map_eq_flatMap]
      refine List.flatMap_congr fun x hx => ?_
      obtain ⟨hmem, hpiped⟩ := List.mem_filter.mp hx
      obtain ⟨p, hp⟩ := Option.isSome_iff_exists.mp (hall x hmem hpiped)
      rw [hp]
      rfl

/-- `execute` waits exactly once for each process that it has started and for nothing else, exactly if every piped
command that it reaches starts a process or, when a command ends the shell, none of them does. -/
theorem children_awaited_iff (hpid : ∀ i p, k.spawn i = some p → p.1 ≠ 0) (h : Accepted cmds) :
    (execute k cmds).1.waited.Perm (execute k cmds).1.started ↔
      ∀ x ∈ (course k 0 cmds).1, x.2.piped = true → (process k x.1 x.2).isSome = (course k 0 cmds).2 := by
  obtain ⟨-, hstarted, hwaited⟩ := execute_course (k := k) h.1
  rw [hstarted, hwaited, ← perm_pending_iff hpid]
  refine Iff.trans ?_ (List.perm_append_left_iff (processes k (!·.piped) (course k 0 cmds).1))
  exact ⟨fun h => h.trans (perm_processes k _).symm, fun h => h.trans (perm_processes k _)⟩

def busy : Kernel := { bare with spawn := fun i => some (i + 5, 0) }

theorem children_awaited_pipe : (execute busy [{ sep := .pipe, argv := [['a']] }, { argv := [['b']] }]).1.waited.Perm
    (execute busy [{ sep := .pipe, argv := [['a']] }, { argv := [['b']] }]).1.started :=
  (children_awaited_iff (fun i p hp => by obtain rfl := Option.some.inj hp; simp) (by simp [Accepted, Args.Parsed])).mpr
    (by decide)

/-- In `true | b` the shell also waits for process 0, which stands for any child. -/
theorem builtin_awaited : Accepted [{ sep := .pipe, argv := [TRUE] }, { argv := [['b']] }] ∧
    (execute busy [{ sep := .pipe, argv := [TRUE] }, { argv := [['b']] }]).1.started = [6] ∧
    (execute busy [{ sep := .pipe, argv := [TRUE] }, { argv := [['b']] }]).1.waited = [6, 0] :=
  ⟨by simp [Accepted, Args.Parsed], by decide, by decide⟩

def Args.held (c : Args) : List Nat := (if c.ofd ≠ 1 then [c.ofd] else []) ++ if c.ifd ≠ 0 then [c.ifd] else []

/-- Of the descriptors that were made, those of the list are open, and each of the others was closed once. -/
structure Holds (k : Kernel) (w : World) (fds : List Nat) : Prop where
  next : k.next ≤ w.next
  perm : (w.closed ++ fds).Perm (List.range' k.next (w.next - k.next))

theorem Holds.of_perm {fds' : List Nat} (h : Holds k w fds) (hp : fds.Perm fds') : Holds k w fds' :=
  ⟨h.next, (hp.append_left _).symm.trans h.perm⟩

theorem Holds.close {fd : Nat} (h : Holds k w (fd :: fds)) : Holds k (w.close fd) fds :=
  ⟨h.next, List.perm_middle.symm.trans h.perm⟩

theorem Holds.enter (h : Holds k w fds) : Holds k w.enter (w.next :: fds) := by
  have hnext := h.next
  have hlen : w.next + 1 - k.next = w.next - k.next + 1 := by omega
  have hlast : k.next + (w.next - k.next) = w.next := by omega
  refine ⟨Nat.le_succ_of_le hnext, ?_⟩
  show (w.closed ++ w.next :: fds).Perm (List.range' k.next (w.next + 1 - k.next))
  rw [hlen, List.range'_concat, Nat.one_mul, hlast]
  exact List.perm_middle.trans ((h.perm.cons _).trans (List.perm_append_singleton _ _).symm)

theorem Holds.closeFiles (h : Holds k w (c.held ++ fds)) :
    Holds k (closeFiles w c) fds := by
  unfold Args.held at h
  unfold Yash.closeFiles
  by_cases ho : c.ofd = 1 <;> by_cases hi :
    c.ifd = 0 <;> simp only [ho, hi, ne_eq, not_true, not_false_eq_true, if_true,
    if_false, List.nil_append, List.cons_append] at h ⊢
  · exact h
  · exact h.close
  · exact h.close
  · exact h.close.close

theorem Holds.finish (h : Holds k w (cs.flatMap Args.held)) : Holds k (finish w cs)
    [] := by
  induction cs generalizing w with
  | nil => exact h
  | cons c cs ih =>
    have hclose := Holds.closeFiles (by simpa using h)
    unfold Yash.finish
    refine ih ?_
    split <;> exact ⟨hclose.next, hclose.perm⟩

theorem Holds.runCommand (h : Holds k w fds) (i : Nat) (c : Args) :
    Holds k (runCommand k i w c).1 fds ∧ (runCommand k i w c).2.1.held = c.held := by
  obtain ⟨o, heq, -⟩ := runCommand_eq (k := k) i w c
  rw [heq]
  exact ⟨⟨h.next, h.perm⟩, rfl⟩

theorem Args.Parsed.held (h : c.Parsed) : c.held = [] := by
  simp [Args.held, h.2.2.1, h.2.2.2]

theorem flatMap_held (h : ∀ c ∈ cs, c.Parsed) : cs.flatMap Args.held = [] :=
  List.flatMap_eq_nil_iff.mpr fun c hc => (h c hc).held

section Fresh
variable (hnext : 1 < k.next) {w : World} {c : Args}
include hnext

theorem Holds.openInput (h : Holds k w c.held) (hc : c.ifn.isSome → c.ifd = 0) (i : Nat) :
    ∃ w' c' b, openInput k i w c = (w', c', b) ∧ Holds k w' c'.held ∧ c'.sep = c.sep ∧ c'.ofd = c.ofd := by
  unfold Yash.openInput
  split
  · rename_i hsome
    split
    · have hne : w.next ≠ 0 := Nat.ne_of_gt (Nat.lt_of_lt_of_le (Nat.zero_lt_of_lt hnext) h.next)
      refine ⟨_, _, _, rfl, h.enter.of_perm ?_, rfl, rfl⟩
      simp only [Args.held, hc hsome, hne, ne_eq, not_true, not_false_eq_true, if_true, if_false, List.append_nil]
      exact (List.perm_append_singleton _ _).symm
    · exact ⟨_, _, _, rfl, h, rfl, rfl⟩
  · exact ⟨_, _, _, rfl, h, rfl, rfl⟩

theorem Holds.openFiles (h : Holds k w c.held) (hc : c.ifn.isSome → c.ifd = 0) (ho : c.ofd = 1)
    (i : Nat) : ∃ w' c' b, openFiles k i w c = (w', c', b) ∧ Holds k w' c'.held ∧ c'.sep = c.sep ∧
      (c.ofn = none → c'.ofd = 1) := by
  unfold Yash.openFiles
  by_cases hofn : c.ofn.isSome = true
  · rw [if_pos hofn]
    have hsome : c.ofn ≠ none := Option.isSome_iff_ne_none.mp hofn
    split
    · have hout : Holds k w.enter { c with ofd := w.next }.held := by
        have hne : w.next ≠ 1 := Nat.ne_of_gt (Nat.lt_of_lt_of_le hnext h.next)
        simpa [Args.held, ho, hne] using h.enter
      obtain ⟨w', c', b, heq, hw, hsep, -⟩ := hout.openInput hnext hc i
      exact ⟨w', c', b, heq, hw, hsep, fun h => absurd h hsome⟩
    · exact ⟨w, c, false, rfl, h, rfl, fun _ => ho⟩
  · rw [if_neg hofn]
    obtain ⟨w', c', b, heq, hw, hsep, hofd⟩ := h.openInput hnext hc i
    exact ⟨w', c', b, heq, hw, hsep, fun _ => hofd.trans ho⟩

theorem Holds.dispatch (h : Holds k w c.held) (hc : c.sep = .pipe → c.ofd = 1) (i : Nat) :
    ∃ w' c' rd f, dispatch k i w c = (w', c', rd, f) ∧ Holds k w' (c'.held ++ rd.toList) ∧
      (∀ r ∈ rd, r ≠ 0 ∧ c.sep = .pipe ∧ f ≠ .stop) := by
  have hplain : Holds k w (c.held ++ (none : Option Nat).toList) := by simpa using h
  unfold Yash.dispatch
  split
  · exact ⟨_, _, none, _, rfl, hplain, by simp⟩
  · rename_i hs
    split
    · have hlt : 1 < w.next := Nat.lt_of_lt_of_le hnext h.next
      have hpipe : Holds k w.enter.enter ({ c with wait := false, ofd := w.next + 1 }.held ++ [w.next]) := by
        have hne : w.next + 1 ≠ 1 := by omega
        refine h.enter.enter.of_perm ?_
        simp only [Args.held, hc hs, hne, ne_eq, not_true, not_false_eq_true, if_true, if_false, List.nil_append,
          List.cons_append]
        exact (List.perm_append_singleton _ _).symm.cons _
      obtain ⟨hw, hheld⟩ := hpipe.runCommand (k := k) i { c with wait := false, ofd := w.next + 1 }
      refine ⟨_, _, some w.next, _, rfl, hheld ▸ hw, fun r hr => ?_⟩
      obtain rfl := Option.some.inj hr
      refine ⟨by omega, hs, ?_⟩
      unfold Outcome.flow
      split <;> simp [Sep.stops]
    · exact ⟨_, _, none, _, rfl, hplain, by simp⟩
  · obtain ⟨hw, hheld⟩ := hplain.runCommand (k := k) i c
    exact ⟨_, _, none, _, rfl, hheld ▸ hw, by simp⟩

theorem Holds.loop {cmds : List Args} (hp : ∀ c ∈ cmds, c.Parsed) (hout : ∀ c ∈ cmds, c.sep = .pipe → c.ofn = none)
    (hin : cmds.IsChain fun c d => c.sep = .pipe → d.ifn = none) (hlast : ∀ c ∈ cmds.getLast?, c.sep ≠ .pipe) {i : Nat}
    {rd : Option Nat} (h : Holds k w rd.toList)
    (hrd : ∀ r ∈ rd, r ≠ 0 ∧ ∃ c ∈ cmds.head?, c.ifn = none) (hret : (loop k i rd w cmds).2.2 = true) :
    Holds k (loop k i rd w cmds).1 ((loop k i rd w cmds).2.1.flatMap Args.held) := by
  induction cmds generalizing i rd w with
  | nil =>
    cases rd with
    | none => exact h
    | some r =>
      obtain ⟨-, c, hc, -⟩ := hrd r rfl
      cases hc
  | cons c rest ih =>
    obtain ⟨hc, hrest⟩ := List.forall_mem_cons.mp hp
    have hheld : { c with ifd := rd.getD c.ifd }.held = rd.toList := by
      cases rd with
      | none => exact hc.held
      | some r => simp [Args.held, hc.2.2.1, (hrd r rfl).1]
    have hifn : ({ c with ifd := rd.getD c.ifd } : Args).ifn.isSome → rd.getD c.ifd = 0 := by
      cases rd with
      | none => exact fun _ => hc.2.2.2
      | some r =>
        obtain ⟨-, c', hc', hnone⟩ := hrd r rfl
        obtain rfl : c = c' := Option.some.inj hc'
        simp [hnone]
    obtain ⟨w₁, c₁, b, hopen, hw₁, hsep₁, hofd₁⟩ := Holds.openFiles hnext (hheld ▸ h) hifn hc.2.2.1 i
    unfold Yash.loop at hret ⊢
    rw [hopen] at hret ⊢
    cases b with
    | false => simpa [flatMap_held hrest] using hw₁
    | true =>
      obtain ⟨w₂, c₂, rd', f, hdis, hw₂, hrd'⟩ := hw₁.dispatch hnext
        (fun hs => hofd₁ (hout c List.mem_cons_self (hsep₁ ▸ hs))) i
      dsimp only at hret ⊢
      rw [hdis] at hret ⊢
      cases f with
      | exit => cases hret
      | stop =>
        cases rd' with
        | none => simpa [flatMap_held hrest] using hw₂
        | some r => exact absurd rfl (hrd' r rfl).2.2
      | next =>
        have hnext : ∀ r ∈ rd', r ≠ 0 ∧ ∃ d ∈ rest.head?, d.ifn = none := by
          intro r hr
          obtain ⟨hne, hs, -⟩ := hrd' r hr
          rw [hsep₁] at hs
          cases rest with
          | nil => exact absurd hs (hlast c rfl)
          | cons d rest => exact ⟨hne, d, rfl, hin.rel_head? rfl hs⟩
        have hlast' : ∀ d ∈ rest.getLast?, d.sep ≠ .pipe := by
          cases rest with
          | nil => simp
          | cons d rest => simpa using hlast
        exact ih hrest (fun d hd => hout d (List.mem_cons_of_mem _ hd)) hin.tail hlast' hw₂.closeFiles hnext hret

end Fresh

/-- A list `a < f | b | c > g`, with a file for input, two pipes and a file for output. -/
def piped : List Args :=
  [{ sep := .pipe, argv := [['a']], ifn := some ['f'] }, { sep := .pipe, argv := [['b']] },
    { argv := [['c']], ofn := some (['g'], .write) }]

end Novino.Yash
