import Mathlib.Data.List.Basic
import Novino.Vfs.Clean

/-! Cleaning a path against the lexical normal form of its components. -/

namespace Novino.Vfs
open Ext2 (Name)

def Skipped (name : Name) : Prop := name = [] ∨ name = dot

instance (name : Name) : Decidable (Skipped name) := inferInstanceAs (Decidable (_ ∨ _))

variable (names : List Name)

/-- One more component: `..` takes an ordinary name away, and stays where there is none. -/
def push (name : Name) : List Name :=
  if Skipped name then names
  else if name = dotdot ∧ names ≠ [] ∧ names.getLast? ≠ some dotdot then names.dropLast
  else names ++ [name]

def normal (components : List Name) : List Name := components.foldl push []

def render : List Byte := names.flatMap (slash :: ·)

def pathText : List Byte := if names = [] then [slash] else render names

/-- No `..` that the normal form keeps is followed by another `..` with only empty components or `.` between the two,
and at least one of them. `gap` tells whether such a component was the last one. -/
def Joined (names : List Name) (gap : Bool) : List Name → Prop
  | [] => True
  | name :: rest =>
    if Skipped name then Joined names true rest
    else ¬(name = dotdot ∧ gap = true ∧ names.getLast? = some dotdot) ∧ Joined (push names name) false rest

section Text
variable {names : List Name} {name : Name}

theorem render_concat : render (names ++ [name]) = render names ++ slash :: name := by
  simp [render]

theorem length_dropName_le (dest : List Byte) : (dropName dest).length ≤ dest.length := by
  have h := (List.dropWhile_sublist (l := dest.reverse) (· != slash)).length_le
  simp only [dropName, List.length_reverse, List.length_tail] at h ⊢
  omega

theorem render_eq_cons (h : names ≠ []) : render names = slash :: [slash].intercalate names := by
  induction names with
  | nil => exact absurd rfl h
  | cons a rest ih =>
    cases rest with
    | nil => simp [render]
    | cons b rest =>
      have hrest := ih (List.cons_ne_nil b rest)
      rw [List.intercalate_cons_cons]
      simpa [render] using hrest

end Text

/-! ### Stacks

The text in the buffer, and the normal form, are a run of `..` followed by ordinary names. -/

def Proper (name : Name) : Prop := ¬Skipped name ∧ name ≠ dotdot ∧ slash ∉ name

instance (name : Name) : Decidable (Proper name) := inferInstanceAs (Decidable (_ ∧ _ ∧ _))

def stack (ups : Nat) (names : List Name) : List Name := List.replicate ups dotdot ++ names

/-- The buffer holds `ups` times `..` and then `names`; the flag is set only after a `..`. -/
structure Holds (c : Cleaner) (ups : Nat) (names : List Name) : Prop where
  dest : c.dest = render (stack ups names)
  depth : c.depth = ups + names.length
  flag : c.dotdot = true → names = [] ∧ ups ≠ 0
  proper : ∀ n ∈ names, Proper n

section Stacks
variable {c : Cleaner} {ups k : Nat} {names : List Name} {name : Name} {ns : List Name} {gap : Bool}

theorem slash_dotdot : slash ∉ dotdot := by decide

theorem stack_concat : stack ups (names ++ [name]) = stack ups names ++ [name] := (List.append_assoc _ _ _).symm

theorem stack_succ : stack (ups + 1) [] = stack ups [] ++ [dotdot] := by
  simp [stack, List.replicate_succ']

theorem length_stack : (stack ups names).length = ups + names.length := by simp [stack]

theorem mem_stack (h : ∀ n ∈ names, Proper n) (hn : name ∈ stack ups names) : slash ∉ name ∧ ¬Skipped name := by
  rcases List.mem_append.mp hn with hn | hn
  · rw [List.eq_of_mem_replicate hn]
    decide
  · exact ⟨(h _ hn).2.2, (h _ hn).1⟩

theorem last_names (h : ∀ n ∈ names ++ [name], Proper n) : (stack ups (names ++ [name])).getLast? ≠ some dotdot := by
  rw [stack_concat, List.getLast?_concat, ne_eq, Option.some.injEq]
  exact (h name (by simp)).2.1

theorem last_ups : (stack (ups + 1) []).getLast? = some dotdot := by rw [stack_succ, List.getLast?_concat]

theorem last_stack (h : ∀ n ∈ names, Proper n) : (stack ups names).getLast? = some dotdot ↔ names = [] ∧ ups ≠ 0 := by
  rcases List.eq_nil_or_concat' names with rfl | ⟨init, last, rfl⟩
  · cases ups with
    | zero => simp [stack]
    | succ k => simp [last_ups]
  · exact iff_of_false (last_names h) (by simp)

/-! One component of the normal form. -/

theorem push_proper (h : Proper name) : push (stack k names) name = stack k (names ++ [name]) := by
  rw [push, if_neg h.1, if_neg (fun hn => h.2.1 hn.1), stack_concat]

theorem push_name (h : ∀ n ∈ names ++ [name], Proper n) : push (stack k (names ++ [name])) dotdot = stack k names := by
  have hne : stack k (names ++ [name]) ≠ [] := by simp [stack]
  rw [push, if_neg (by decide), if_pos ⟨rfl, hne, last_names h⟩, stack_concat, List.dropLast_concat]

theorem push_up : push (stack k []) dotdot = stack (k + 1) [] := by
  rw [push, if_neg (by decide), if_neg, stack_succ]
  rintro ⟨-, hne, hlast⟩
  cases k with
  | zero => exact hne rfl
  | succ k => exact hlast last_ups

/-! One component in the buffer. -/

theorem component_skip (h : Skipped name) : c.component name = { c with dotdot := false } := by
  rcases h with rfl | rfl <;> simp [Cleaner.component, dot, dotdot]

theorem component_append (h : ¬Skipped name) (hup : name = dotdot → c.depth = 0 ∨ c.dotdot = true) :
    c.component name = { c with
      dest := c.dest ++ slash :: name, depth := c.depth + 1, dotdot := name == dotdot
      most := max c.most (c.dest ++ slash :: name).length } := by
  have hname : name ≠ dot ∧ name ≠ [] := ⟨fun hd => h (.inr hd), fun hd => h (.inl hd)⟩
  rw [Cleaner.component, if_neg, if_pos hname]
  simp only [Bool.and_eq_true, beq_iff_eq, bne_iff_ne, Bool.not_eq_true', not_and, Bool.not_eq_false]
  intro hn
  rcases hup hn.1 with hz | hf
  · exact absurd hz hn.2
  · exact hf

theorem component_drop (hd : c.depth ≠ 0) (hf : c.dotdot = false) :
    c.component dotdot = { c with
      dest := dropName c.dest, depth := c.depth - 1
      dotdot := c.depth - 1 != 0 && lastName (dropName c.dest) == dotdot } := by
  rw [Cleaner.component, if_pos]
  simp [hd, hf]

theorem Holds.skip (h : Holds c ups names) (hs : Skipped name) : Holds (c.component name) ups names := by
  rw [component_skip hs]
  exact ⟨h.dest, h.depth, fun hf => (nomatch hf), h.proper⟩

theorem Holds.append (h : Holds c ups names) (hn : Proper name) : Holds (c.component name) ups (names ++ [name]) := by
  rw [component_append hn.1 fun heq => absurd heq hn.2.1]
  refine ⟨?_, ?_, fun hf => ?_, fun n hmem => ?_⟩
  · rw [h.dest, stack_concat, render_concat]
  · simp [h.depth, Nat.add_assoc]
  · exact absurd (beq_iff_eq.mp hf) hn.2.1
  · rcases List.mem_append.mp hmem with hmem | hmem
    · exact h.proper n hmem
    · rwa [List.mem_singleton.mp hmem]

theorem Holds.drop {ups' : Nat} {names' : List Name} {last : Name} (h : Holds c ups names)
    (hs : stack ups names = stack ups' names' ++ [last]) (hf : c.dotdot = false) (hl : slash ∉ last)
    (hp : ∀ n ∈ names', Proper n) :
    Holds (c.component dotdot) ups' names' ∧ (c.component dotdot).dotdot = decide (names' = [] ∧ ups' ≠ 0) := by
  have hlen : c.depth = ups' + names'.length + 1 := by
    have := congrArg List.length hs
    rw [List.length_append, length_stack, length_stack, List.length_singleton] at this
    rw [h.depth, this]
  have hdrop : dropName c.dest = render (stack ups' names') := by
    rw [h.dest, hs, render_concat, dropName_append _ hl]
  have hflag : (c.depth - 1 != 0 && lastName (dropName c.dest) == dotdot) = decide (names' = [] ∧ ups' ≠ 0) := by
    rw [Bool.eq_iff_iff, decide_eq_true_iff, ← last_stack hp, hdrop, hlen, Nat.add_sub_cancel]
    rcases List.eq_nil_or_concat' (stack ups' names') with hnil | ⟨init, l, hc⟩
    · have hz := congrArg List.length hnil
      rw [length_stack, List.length_nil] at hz
      simp [hz, hnil]
    · have hne := congrArg List.length hc
      rw [length_stack, List.length_append, List.length_singleton] at hne
      have hmem : l ∈ stack ups' names' := by simp [hc]
      rw [hne, hc, render_concat, lastName_append _ (mem_stack hp hmem).1, List.getLast?_concat]
      simp
  rw [component_drop (by omega) hf]
  refine ⟨⟨hdrop, by dsimp only; omega, fun hset => ?_, hp⟩, hflag⟩
  exact of_decide_eq_true (hflag.symm.trans hset)

theorem Holds.up (h : Holds c ups []) (hk : ups = 0 ∨ c.dotdot = true) :
    Holds (c.component dotdot) (ups + 1) [] ∧ (c.component dotdot).dotdot = true := by
  rw [component_append (by decide) fun _ => hk.imp_left fun hz => h.depth.trans (by simp [hz])]
  refine ⟨⟨?_, ?_, fun _ => ⟨rfl, Nat.succ_ne_zero _⟩, h.proper⟩, beq_self_eq_true _⟩
  · rw [h.dest, stack_succ, render_concat]
  · rw [h.depth]
    simp

/-- The buffer holds the normal form, and the flag tells of a `..` at its end unless a component was skipped. -/
def Agree (c : Cleaner) (ns : List Name) (gap : Bool) : Prop := ∃ ups names, Holds c ups names ∧ ns = stack ups names ∧
  c.dotdot = (decide (names = [] ∧ ups ≠ 0) && !gap)

def Lost (c : Cleaner) (ns : List Name) : Prop := ∃ ups k names, Holds c ups names ∧ ns = stack k names ∧ ups + 2 ≤ k

theorem Lost.step (h : Lost c ns) (hn : slash ∉ name) : Lost (c.component name) (push ns name) := by
  obtain ⟨ups, k, names, hc, rfl, hk⟩ := h
  by_cases hs : Skipped name
  · exact ⟨ups, k, names, hc.skip hs, if_pos hs, hk⟩
  · by_cases hup : name = dotdot
    · subst hup
      rcases List.eq_nil_or_concat' names with rfl | ⟨init, last, rfl⟩
      · rw [push_up]
        by_cases hf : ups = 0 ∨ c.dotdot = true
        · exact ⟨ups + 1, k + 1, [], (hc.up hf).1, rfl, by omega⟩
        · obtain ⟨u, rfl⟩ := Nat.exists_eq_succ_of_ne_zero (fun hz => hf (.inl hz))
          have hfalse : c.dotdot = false := Bool.eq_false_iff.mpr fun ht => hf (.inr ht)
          exact ⟨u, k + 1, [], (hc.drop stack_succ hfalse slash_dotdot hc.proper).1, rfl, by omega⟩
      · rw [push_name hc.proper]
        have hfalse : c.dotdot = false := Bool.eq_false_iff.mpr fun ht => by simpa using (hc.flag ht).1
        have hp : ∀ n ∈ init, Proper n := fun n hmem => hc.proper n (List.mem_append_left _ hmem)
        exact ⟨ups, k, init, (hc.drop stack_concat hfalse (hc.proper last (by simp)).2.2 hp).1, rfl, hk⟩
    · have hp : Proper name := ⟨hs, hup, hn⟩
      exact ⟨ups, k, names ++ [name], hc.append hp, push_proper hp, hk⟩

theorem Agree.step (h : Agree c ns gap) (hs : ¬Skipped name) (hn : slash ∉ name) :
    ((name = dotdot ∧ gap = true ∧ ns.getLast? = some dotdot) ∧ Lost (c.component name) (push ns name)) ∨
      (¬(name = dotdot ∧ gap = true ∧ ns.getLast? = some dotdot) ∧ Agree (c.component name) (push ns name) false) := by
  obtain ⟨ups, names, hc, rfl, hflag⟩ := h
  rw [last_stack hc.proper]
  by_cases hup : name = dotdot
  · subst hup
    rcases List.eq_nil_or_concat' names with rfl | ⟨init, last, rfl⟩
    · rw [push_up]
      by_cases hf : ups = 0 ∨ c.dotdot = true
      · refine .inr ⟨?_, ups + 1, [], (hc.up hf).1, rfl, by simp [(hc.up hf).2]⟩
        rintro ⟨-, rfl, -, hz⟩
        exact hf.elim hz fun ht => by simp [ht] at hflag
      · obtain ⟨u, rfl⟩ := Nat.exists_eq_succ_of_ne_zero (fun hz => hf (.inl hz))
        have hfalse : c.dotdot = false := Bool.eq_false_iff.mpr fun ht => hf (.inr ht)
        have hgap : gap = true := by simpa [hfalse] using hflag
        refine .inl ⟨⟨rfl, hgap, rfl, Nat.succ_ne_zero u⟩, ?_⟩
        exact ⟨u, u + 2, [], (hc.drop stack_succ hfalse slash_dotdot hc.proper).1, rfl, Nat.le_refl _⟩
    · have hfalse : c.dotdot = false := Bool.eq_false_iff.mpr fun ht => by simpa using (hc.flag ht).1
      have hp : ∀ n ∈ init, Proper n := fun n hmem => hc.proper n (List.mem_append_left _ hmem)
      have hd := hc.drop stack_concat hfalse (hc.proper last (by simp)).2.2 hp
      rw [push_name hc.proper]
      exact .inr ⟨by simp, ups, init, hd.1, rfl, by rw [hd.2]; simp⟩
  · have hp : Proper name := ⟨hs, hup, hn⟩
    rw [push_proper hp]
    refine .inr ⟨fun h => hup h.1, ups, names ++ [name], hc.append hp, rfl, ?_⟩
    rw [component_append hs fun heq => absurd heq hup]
    simp [hup]

theorem Lost.run (h : Lost c ns) (comps : List Name) (hn : ∀ n ∈ comps, slash ∉ n) :
    Lost (comps.foldl Cleaner.component c) (comps.foldl push ns) := by
  induction comps generalizing c ns with
  | nil => exact h
  | cons name rest ih =>
    exact ih (h.step (hn name List.mem_cons_self)) fun n hmem => hn n (List.mem_cons_of_mem _ hmem)

theorem Agree.run (h : Agree c ns gap) (comps : List Name) (hn : ∀ n ∈ comps, slash ∉ n) :
    (Joined ns gap comps ∧ ∃ gap', Agree (comps.foldl Cleaner.component c) (comps.foldl push ns) gap') ∨
      (¬Joined ns gap comps ∧ Lost (comps.foldl Cleaner.component c) (comps.foldl push ns)) := by
  induction comps generalizing c ns gap with
  | nil => exact .inl ⟨trivial, gap, h⟩
  | cons name rest ih =>
    have hrest : ∀ n ∈ rest, slash ∉ n := fun n hmem => hn n (List.mem_cons_of_mem _ hmem)
    rw [Joined, List.foldl_cons, List.foldl_cons]
    by_cases hs : Skipped name
    · obtain ⟨ups, names, hc, hns, -⟩ := h
      have hpush : push ns name = ns := if_pos hs
      rw [if_pos hs, hpush]
      exact ih ⟨ups, names, hc.skip hs, hns, by rw [component_skip hs]; simp⟩ hrest
    · rw [if_neg hs]
      rcases h.step hs (hn name List.mem_cons_self) with ⟨hbad, hlost⟩ | ⟨hgood, hstep⟩
      · exact .inr ⟨fun hj => hj.1 hbad, hlost.run rest hrest⟩
      · rcases ih hstep hrest with ⟨hj, hend⟩ | ⟨hj, hend⟩
        · exact .inl ⟨⟨hgood, hj⟩, hend⟩
        · exact .inr ⟨fun h => hj h.2, hend⟩

end Stacks

section Paths
variable {path : List Byte} {names : List Name} {ups w : Nat}

theorem slash_splitOn (path : List Byte) : ∀ n ∈ path.splitOn slash, slash ∉ n := by
  induction path with
  | nil => simp
  | cons b path ih =>
    rw [List.splitOn_cons_eq_if_modifyHead]
    split
    · simpa using ih
    · rename_i hb
      cases hs : path.splitOn slash with
      | nil => simp
      | cons first rest =>
        rw [hs] at ih
        intro n hn
        rcases List.mem_cons.mp hn with rfl | hn
        · intro hmem
          rcases List.mem_cons.mp hmem with rfl | hmem
          · exact hb (beq_self_eq_true slash)
          · exact ih first List.mem_cons_self hmem
        · exact ih n (List.mem_cons_of_mem _ hn)

theorem modifyHead_nil_append (comps : List Name) : comps.modifyHead ([] ++ ·) = comps := by
  cases comps <;> rfl

theorem loop_eq (c : Cleaner) (name : Name) (path : List Byte) : c.loop name path =
    ((path.splitOn slash).modifyHead (name ++ ·)).foldl Cleaner.component c := by
  induction path generalizing c name with
  | nil => simp [Cleaner.loop]
  | cons b path ih =>
    rw [Cleaner.loop, List.splitOn_cons_eq_if_modifyHead]
    by_cases hb : b = slash
    · rw [if_pos hb, if_pos (beq_iff_eq.mpr hb), ih, modifyHead_nil_append]
      simp
    · rw [if_neg hb, if_neg (by simpa using hb), ih, List.modifyHead_modifyHead]
      congr 2
      funext l
      simp

def components (path : List Byte) : List Name :=
  (if path.head? = some slash then path.tail else path).splitOn slash

theorem cleaner_loop (path : List Byte) : Cleaner.loop {} [] (if path.head? = some slash then path.tail else path) =
    (components path).foldl Cleaner.component {} := by
  rw [loop_eq, components, modifyHead_nil_append]

theorem splitOn_components (path : List Byte) : path.splitOn slash = components path ∨
    path.splitOn slash = [] :: components path := by
  unfold components
  split
  · rename_i h
    obtain ⟨rest, rfl⟩ : ∃ rest, path = slash :: rest := by
      cases path with
      | nil => cases h
      | cons b rest => exact ⟨rest, by rw [Option.some.inj h]⟩
    right
    simp [List.splitOn_cons_eq_if_modifyHead]
  · exact .inl rfl

theorem agree_start (gap : Bool) : Agree {} [] gap :=
  ⟨0, [], ⟨rfl, rfl, fun h => (nomatch h), by simp⟩, rfl, by simp⟩

theorem run_path (path : List Byte) :
    (Joined [] false (path.splitOn slash) ∧ ∃ gap, Agree ((components path).foldl Cleaner.component {})
      (normal (path.splitOn slash)) gap) ∨
    (¬Joined [] false (path.splitOn slash) ∧ Lost ((components path).foldl Cleaner.component {})
      (normal (path.splitOn slash))) := by
  have hn := slash_splitOn path
  rcases splitOn_components path with heq | heq
  · rw [normal, ← heq]
    exact (agree_start false).run _ hn
  · have hnormal : normal ([] :: components path) = (components path).foldl push [] := rfl
    have hjoined : Joined [] false ([] :: components path) = Joined [] true (components path) := if_pos (.inl rfl)
    rw [heq] at hn ⊢
    rw [hnormal, hjoined]
    exact (agree_start true).run _ fun n hmem => hn n (List.mem_cons_of_mem _ hmem)

theorem vfsCleanPath_of_holds (h : Holds ((components path).foldl Cleaner.component {}) ups names) :
    vfsCleanPath path = (pathText (stack ups names), (stack ups names).length) := by
  rw [vfsCleanPath, cleaner, cleaner_loop]
  generalize (components path).foldl Cleaner.component {} = c at h
  rw [length_stack, ← h.depth]
  split
  · rename_i hz
    have hnil : stack ups names = [] := List.length_eq_zero_iff.mp (by rw [length_stack, ← h.depth, hz])
    rw [h.dest, hnil]
    rfl
  · rename_i hz
    have hne : stack ups names ≠ [] := fun hnil => hz (by rw [h.depth, ← length_stack, hnil, List.length_nil])
    rw [h.dest, pathText, if_neg hne]

theorem joined_of_unskipped {ns comps : List Name} (h : ∀ n ∈ comps, ¬Skipped n) : Joined ns false comps := by
  induction comps generalizing ns with
  | nil => trivial
  | cons name rest ih =>
    rw [Joined, if_neg (h name List.mem_cons_self)]
    exact ⟨fun hbad => (nomatch hbad.2.1), ih fun n hn => h n (List.mem_cons_of_mem _ hn)⟩

theorem foldl_push_ups (k ups : Nat) : (List.replicate ups dotdot).foldl push (stack k []) = stack (k + ups) [] := by
  induction ups generalizing k with
  | zero => rfl
  | succ ups ih =>
    rw [List.replicate_succ, List.foldl_cons, push_up, ih]
    congr 1
    omega

theorem foldl_push_names (k : Nat) (init : List Name) (hp : ∀ n ∈ names, Proper n) :
    names.foldl push (stack k init) = stack k (init ++ names) := by
  induction names generalizing init with
  | nil => simp
  | cons name rest ih =>
    rw [List.foldl_cons, push_proper (hp name List.mem_cons_self), ih _ fun n hn => hp n (List.mem_cons_of_mem _ hn)]
    simp

theorem normal_stack (ups : Nat) (hp : ∀ n ∈ names, Proper n) : normal (stack ups names) = stack ups names := by
  have hnil : ([] : List Name) = stack 0 [] := rfl
  conv_lhs => rw [normal, stack, List.foldl_append, hnil, foldl_push_ups, Nat.zero_add]
  exact foldl_push_names ups [] hp

theorem vfsCleanPath_pathText (hp : ∀ n ∈ names, Proper n) :
    vfsCleanPath (pathText (stack ups names)) = (pathText (stack ups names), (stack ups names).length) := by
  by_cases hnil : stack ups names = []
  · rw [hnil]
    decide
  · have hcomps : components (pathText (stack ups names)) = stack ups names := by
      rw [pathText, if_neg hnil, render_eq_cons hnil, components, List.head?_cons, if_pos rfl, List.tail_cons]
      exact List.splitOn_intercalate slash (fun n hn => (mem_stack hp hn).1) hnil
    have hj : Joined [] false (stack ups names) := joined_of_unskipped fun n hn => (mem_stack hp hn).2
    rcases (agree_start false).run _ fun n hn => (mem_stack hp hn).1 with ⟨-, gap, k, rest, hc, heq, -⟩ | ⟨hno, -⟩
    · rw [← hcomps] at hc
      rw [vfsCleanPath_of_holds hc, ← heq]
      exact congrArg (fun ns => (pathText ns, ns.length)) (normal_stack ups hp)
    · exact absurd hj hno

theorem component_most (c : Cleaner) (name : Name) (hm : c.most ≤ w) (hd : c.dest.length ≤ w) :
    (c.component name).most ≤ w + (name.length + 1) ∧ (c.component name).dest.length ≤ w + (name.length + 1) := by
  unfold Cleaner.component
  dsimp only
  have hdrop := length_dropName_le c.dest
  split
  · exact ⟨by dsimp only; omega, by dsimp only; omega⟩
  · split
    · simp only [List.length_append, List.length_cons]
      omega
    · exact ⟨by dsimp only; omega, by dsimp only; omega⟩

theorem foldl_most (comps : List Name) (c : Cleaner) (hm : c.most ≤ w) (hd : c.dest.length ≤ w) :
    (comps.foldl Cleaner.component c).most ≤ w + (comps.map (·.length + 1)).sum := by
  induction comps generalizing c w with
  | nil => exact hm
  | cons name rest ih =>
    obtain ⟨hm', hd'⟩ := component_most c name hm hd
    rw [List.map_cons, List.sum_cons, ← Nat.add_assoc]
    exact ih _ hm' hd'

theorem sum_splitOn (path : List Byte) : ((path.splitOn slash).map (·.length + 1)).sum = path.length + 1 := by
  induction path with
  | nil => rfl
  | cons b path ih =>
    rw [List.splitOn_cons_eq_if_modifyHead]
    split
    · simp [ih, Nat.add_comm 1]
    · cases hs : path.splitOn slash with
      | nil => simp [hs] at ih
      | cons first rest =>
        simp only [hs, List.map_cons, List.sum_cons, List.modifyHead_cons, List.length_cons] at ih ⊢
        omega

theorem most_le (path : List Byte) : (cleaner path).most ≤ path.length + 1 := by
  have hlen : (if path.head? = some slash then path.tail else path).length ≤ path.length := by
    split
    · rw [List.length_tail]
      omega
    · exact Nat.le_refl _
  have hmost := foldl_most (components path) {} (w := 0) (Nat.le_refl 0) (Nat.le_refl 0)
  rw [components, sum_splitOn, ← components] at hmost
  rw [cleaner, cleaner_loop]
  split
  · rename_i hz
    have hnil : ((components path).foldl Cleaner.component {}).dest = [] := by
      rcases run_path path with ⟨-, gap, ups, names, hc, -⟩ | ⟨-, ups, k, names, hc, -⟩
      all_goals
        have hlen : stack ups names = [] := List.length_eq_zero_iff.mp (by rw [length_stack, ← hc.depth, hz])
        rw [hc.dest, hlen]
        rfl
    rw [hnil]
    simp only [List.length_nil]
    omega
  · omega

/-- What is expected of `vfs_clean_path`: the text and the number of components of the normal form, inside the buffer,
and nothing to do the second time. -/
structure Cleaned (path : List Byte) : Prop where
  text : (vfsCleanPath path).1 = pathText (normal (path.splitOn slash))
  count : (vfsCleanPath path).2 = (normal (path.splitOn slash)).length
  room : (cleaner path).most ≤ path.length + 1
  again : vfsCleanPath (vfsCleanPath path).1 = vfsCleanPath path

/-- Empty components and `.` clear the flag that protects a `..` from being taken away by the next one. -/
theorem cleaned_iff (path : List Byte) : Cleaned path ↔ Joined [] false (path.splitOn slash) := by
  rcases run_path path with ⟨hj, gap, ups, names, hc, heq, -⟩ | ⟨hj, ups, k, names, hc, heq, hk⟩
  · have hclean := vfsCleanPath_of_holds hc
    refine iff_of_true ⟨?_, ?_, most_le path, ?_⟩ hj
    · rw [hclean, heq]
    · rw [hclean, heq]
    · rw [hclean]
      exact vfsCleanPath_pathText hc.proper
  · refine iff_of_false (fun h => ?_) hj
    have hcount := h.count
    rw [vfsCleanPath_of_holds hc, heq, length_stack, length_stack] at hcount
    omega

/-- `.././..`, which leads up twice, is cleaned to `/`. -/
theorem dots_cross_lost : vfsCleanPath [0x2E, 0x2E, 0x2F, 0x2E, 0x2F, 0x2E, 0x2E] = ([slash], 0) ∧
    normal (List.splitOn slash [0x2E, 0x2E, 0x2F, 0x2E, 0x2F, 0x2E, 0x2E]) = [dotdot, dotdot] ∧
    ¬Cleaned [0x2E, 0x2E, 0x2F, 0x2E, 0x2F, 0x2E, 0x2E] := by
  have hclean : vfsCleanPath [0x2E, 0x2E, 0x2F, 0x2E, 0x2F, 0x2E, 0x2E] = ([slash], 0) := by decide
  have hnormal : normal (List.splitOn slash [0x2E, 0x2E, 0x2F, 0x2E, 0x2F, 0x2E, 0x2E]) = [dotdot, dotdot] := by decide
  refine ⟨hclean, hnormal, fun h => ?_⟩
  have hcount := h.count
  rw [hclean, hnormal] at hcount
  exact absurd hcount (by decide)

end Paths

end Novino.Vfs
