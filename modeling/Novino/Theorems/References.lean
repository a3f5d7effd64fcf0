import Novino.Theorems.Dentries
import Mathlib.Algebra.Order.BigOperators.Group.List
import Mathlib.Algebra.Order.Group.Nat

/-! The counts that open files and working directories leave in dentries and mounts, and descriptors in the files. -/

namespace Novino.Vfs
open Chains Counts
open Ext2 (Name)

variable {Φ : Type} {s s' : State Φ} {R : Nat → Nat} {d e m p f dp src dst parent : Nat} {name : Name} {id : Nat}
  (q : Proc)

def File.isOn (x : File) (d : Nat) : Bool := x.refs != 0 && x.dentry == d

def Proc.worksIn (d : Nat) : Bool := q.alive && q.cwd == d

def Proc.holds (f : Nat) : Nat := q.fds.countP (·.2 == f)

def State.openFiles (s : State Φ) (d : Nat) : Nat := (List.range s.files).countP fun f => (s.file f).isOn d

def State.workers (s : State Φ) (d : Nat) : Nat := (List.range s.procs).countP fun p => (s.proc p).worksIn d

def State.refs (s : State Φ) (d : Nat) : Nat := s.openFiles d + s.workers d

def State.mountRef (s : State Φ) (m d : Nat) : Nat :=
  if s.live d && (s.dentry d).mp == m then (s.dentry d).numfd else 0

def State.mountRefs (s : State Φ) (m : Nat) : Nat := ((List.range s.fresh).map (s.mountRef m)).sum

def State.holders (s : State Φ) (f : Nat) : Nat :=
  ((List.range s.procs).map fun p => (s.proc p).holds f).sum

/-- Dentries and mounts count the references `R`, which are to dentries that exist. -/
structure Balanced (s : State Φ) (R : Nat → Nat) : Prop where
  numfd : ∀ d, s.live d = true → (s.dentry d).numfd = R d
  mounts : ∀ m, s.live m = true → (s.dentry m).mp = m → s.mpNumfd m = s.mountRefs m
  used : ∀ d, R d ≠ 0 → s.Valid d

structure Held (s : State Φ) : Prop where
  procs : ∀ p, s.procs ≤ p → (s.proc p).alive = false ∧ (s.proc p).fds = []
  files : ∀ p, ∀ fd ∈ (s.proc p).fds, fd.2 < s.files
  refs : ∀ f < s.files, (s.file f).refs = s.holders f

structure Counted (s : State Φ) : Prop where
  balanced : Balanced s s.refs
  held : Held s

/-! ### Dentries and mounts -/

theorem mountRefs_congr (hf : s'.fresh = s.fresh) (h : ∀ d < s.fresh, s'.mountRef m d = s.mountRef m d) :
    s'.mountRefs m = s.mountRefs m := by
  rw [State.mountRefs, State.mountRefs, hf]
  exact congrArg List.sum (List.map_congr_left fun d hd => h d (List.mem_range.mp hd))

structure SameRefs (s s' : State Φ) : Prop where
  live : s'.live = s.live
  fresh : s'.fresh = s.fresh
  mpNumfd : s'.mpNumfd = s.mpNumfd
  mp : ∀ d, (s'.dentry d).mp = (s.dentry d).mp
  numfd : ∀ d, (s'.dentry d).numfd = (s.dentry d).numfd

theorem SameRefs.mountRef (h : SameRefs s s') : s'.mountRef m d = s.mountRef m d := by
  rw [State.mountRef, State.mountRef, h.live, h.mp, h.numfd]

theorem Balanced.congr (h : Balanced s R) (hs : SameRefs s s')
    (hpos : ∀ d, R d ≠ 0 → s'.isPositive d = s.isPositive d) :
    Balanced s' R where
  numfd d hd := by
    rw [hs.live] at hd
    rw [hs.numfd]
    exact h.numfd d hd
  mounts m hm hmp := by
    rw [hs.live] at hm
    rw [hs.mp] at hmp
    rw [hs.mpNumfd, mountRefs_congr hs.fresh fun d _ => hs.mountRef]
    exact h.mounts m hm hmp
  used d hd := by
    obtain ⟨h₁, h₂⟩ := h.used d hd
    exact ⟨hs.live ▸ h₁, (hpos d hd).trans h₂⟩

def State.recount (s : State Φ) (d : Nat) (g : Nat → Nat) : State Φ :=
  { s.modify d fun x => { x with numfd := g x.numfd } with
    mpNumfd := Function.update s.mpNumfd (s.dentry d).mp (g (s.mpNumfd (s.dentry d).mp)) }

section Recount
variable (s d) (g : Nat → Nat)

theorem recount_dentry (e : Nat) : (s.recount d g).dentry e =
    if e = d then { s.dentry e with numfd := g (s.dentry e).numfd } else s.dentry e := by
  show (s.modify d fun x => { x with numfd := g x.numfd }).dentry e = _
  rw [State.modify_dentry]

theorem recount_mp (e : Nat) : ((s.recount d g).dentry e).mp = (s.dentry e).mp := by
  rw [recount_dentry]
  split <;> rfl

theorem recount_isPositive (e : Nat) : (s.recount d g).isPositive e = s.isPositive e := by
  rw [State.isPositive, recount_dentry]
  split <;> rfl

theorem recount_numfd (e : Nat) : ((s.recount d g).dentry e).numfd =
    if e = d then g (s.dentry e).numfd else (s.dentry e).numfd := by
  rw [recount_dentry]
  split <;> rfl

variable {s d} in
theorem recount_mountRefs (hd : d < s.fresh) (hl : s.live d = true) (m : Nat) :
    (s.recount d g).mountRefs m + (if (s.dentry d).mp = m then (s.dentry d).numfd else 0) =
      s.mountRefs m + if (s.dentry d).mp = m then g (s.dentry d).numfd else 0 := by
  have hterm : ∀ e, (s.recount d g).mountRef m e = if s.live e && (s.dentry e).mp == m then
      if e = d then g (s.dentry e).numfd else (s.dentry e).numfd else 0 := fun e => by
    rw [State.mountRef, recount_mp, recount_numfd]
    rfl
  have hchange := sum_map_change (f := s.mountRef m) (g := (s.recount d g).mountRef m) (List.nodup_range (n := s.fresh))
    (List.mem_range.mpr hd) fun e _ he => by rw [hterm, if_neg he, State.mountRef]
  rw [hterm, State.mountRef] at hchange
  simp only [hl, Bool.true_and, beq_iff_eq, if_true] at hchange
  exact hchange

end Recount

theorem Balanced.recount (hl : Linked s) (h : Balanced s R) (hd : s.Valid d) (g : Nat → Nat)
    (hg : g (s.mpNumfd (s.dentry d).mp) + R d = s.mpNumfd (s.dentry d).mp + g (R d)) :
    Balanced (s.recount d g) (Function.update R d (g (R d))) where
  numfd e he := by
    rw [recount_numfd, Function.update_apply]
    split
    · rename_i heq
      rw [heq, h.numfd d hd.live]
    · exact h.numfd e he
  mounts m hm hmp := by
    rw [recount_mp] at hmp
    have hsum := recount_mountRefs g (hl.bound d hd.live) hd.live m
    have hold := h.mounts m hm hmp
    show Function.update s.mpNumfd _ _ m = _
    rw [h.numfd d hd.live] at hsum
    rw [Function.update_apply]
    split
    · rename_i heq
      rw [if_pos heq.symm, if_pos heq.symm] at hsum
      rw [← heq] at hg ⊢
      omega
    · rename_i hne
      rw [if_neg (Ne.symm hne), if_neg (Ne.symm hne)] at hsum
      omega
  used e he := by
    have hvalid : s.Valid e := by
      rw [Function.update_apply] at he
      split at he
      · rename_i heq
        exact heq ▸ hd
      · exact h.used e he
    exact ⟨hvalid.live, (recount_isPositive s d g e).trans hvalid.positive⟩

theorem Balanced.open (hl : Linked s) (h : Balanced s R) (hd : s.Valid d) :
    Balanced (s.dentryOpen d) (Function.update R d (R d + 1)) :=
  h.recount hl hd (· + 1) (by omega)

theorem Balanced.le_mount (hl : Linked s) (h : Balanced s R) (hd : s.live d = true) :
    R d ≤ s.mpNumfd (s.dentry d).mp := by
  obtain ⟨hm, hmp⟩ := hl.mount d hd
  have hle : s.mountRef (s.dentry d).mp d ≤ s.mountRefs (s.dentry d).mp :=
    List.le_sum_of_mem (List.mem_map_of_mem (List.mem_range.mpr (hl.bound d hd)))
  rw [h.mounts _ hm hmp, ← h.numfd d hd]
  rw [State.mountRef, hd] at hle
  simpa using hle

theorem Balanced.close (hl : Linked s) (h : Balanced s R) (hd : R d ≠ 0) :
    Balanced (s.dentryClose d) (Function.update R d (R d - 1)) := by
  have hvalid := h.used d hd
  have hle := h.le_mount hl hvalid.live
  have hdec : ∀ n, n ≠ 0 → dec n = n - 1 := fun n hn => if_neg hn
  have hg : dec (s.mpNumfd (s.dentry d).mp) + R d = s.mpNumfd (s.dentry d).mp + dec (R d) := by
    rw [hdec _ hd, hdec _ (by omega)]
    omega
  have hclose := h.recount hl hvalid dec hg
  rwa [hdec _ hd] at hclose

/-! ### Files and processes -/

section Changes
variable {x : File} {q : Proc}

theorem openFiles_change (hfiles : s'.files = s.files) (hfile : s'.file = Function.update s.file f x) (hf : f < s.files)
    (d : Nat) : s'.openFiles d + ((s.file f).isOn d).toNat = s.openFiles d + (x.isOn d).toNat := by
  rw [State.openFiles, hfiles, hfile]
  exact countP_range_update s.file (·.isOn d) hf x

theorem openFiles_push (hfiles : s'.files = s.files + 1) (hfile : s'.file = Function.update s.file s.files x)
    (d : Nat) :
    s'.openFiles d = s.openFiles d + (x.isOn d).toNat := by
  rw [State.openFiles, hfiles, hfile]
  exact countP_range_push s.file (·.isOn d) _ x

theorem openFiles_same (hfiles : s'.files = s.files) (hfile : ∀ f, (s'.file f).isOn d = (s.file f).isOn d) :
    s'.openFiles d = s.openFiles d := by
  rw [State.openFiles, hfiles]
  exact List.countP_congr fun f _ => by rw [hfile f]

theorem workers_change (hprocs : s'.procs = s.procs) (hproc : s'.proc = Function.update s.proc p q) (hp : p < s.procs)
    (d : Nat) : s'.workers d + ((s.proc p).worksIn d).toNat = s.workers d + (q.worksIn d).toNat := by
  rw [State.workers, hprocs, hproc]
  exact countP_range_update s.proc (·.worksIn d) hp q

theorem workers_push (hprocs : s'.procs = s.procs + 1) (hproc : s'.proc = Function.update s.proc s.procs q) (d : Nat) :
    s'.workers d = s.workers d + (q.worksIn d).toNat := by
  rw [State.workers, hprocs, hproc]
  exact countP_range_push s.proc (·.worksIn d) _ q

theorem workers_same (hprocs : s'.procs = s.procs) (hproc : ∀ p, (s'.proc p).worksIn d = (s.proc p).worksIn d) :
    s'.workers d = s.workers d := by
  rw [State.workers, hprocs]
  exact List.countP_congr fun p _ => by rw [hproc p]

end Changes

theorem fdFind_mem (h : s.fdFind p id = some f) : (id, f) ∈ (s.proc p).fds := by
  obtain ⟨⟨id', f'⟩, hfind, rfl⟩ := Option.map_eq_some_iff.mp h
  have hid := List.find?_some hfind
  simp only [beq_iff_eq] at hid
  exact hid ▸ List.mem_of_find?_eq_some hfind

section Held
variable (h : Held s) {id : Nat}
include h

theorem Held.proc_lt (hf : (id, f) ∈ (s.proc p).fds) : p < s.procs := by
  by_contra hp
  rw [(h.procs p (Nat.le_of_not_lt hp)).2] at hf
  cases hf

theorem Held.alive_lt (hp : (s.proc p).alive = true) : p < s.procs := by
  by_contra hle
  rw [(h.procs p (Nat.le_of_not_lt hle)).1] at hp
  cases hp

theorem Held.holders_pos (hf : (id, f) ∈ (s.proc p).fds) : 0 < s.holders f := by
  have hpos : 0 < (s.proc p).holds f := List.countP_pos_iff.mpr ⟨_, hf, by simp⟩
  have hle : (s.proc p).holds f ≤ s.holders f :=
    List.le_sum_of_mem (List.mem_map_of_mem (f := fun p => (s.proc p).holds f) (List.mem_range.mpr (h.proc_lt hf)))
  omega

theorem Held.holders_fresh : s.holders s.files = 0 := by
  refine List.sum_eq_zero fun n hn => ?_
  obtain ⟨p, -, rfl⟩ := List.mem_map.mp hn
  refine List.countP_eq_zero.mpr fun fd hfd => ?_
  simpa using Nat.ne_of_lt (h.files p fd hfd)

theorem Held.file_open (hf : (id, f) ∈ (s.proc p).fds) : f < s.files ∧ (s.file f).refs ≠ 0 := by
  have hlt := h.files p _ hf
  have hpos := h.holders_pos hf
  exact ⟨hlt, by rw [h.refs f hlt]; omega⟩

end Held

structure SameDentries (s s' : State Φ) : Prop where
  dentry : s'.dentry = s.dentry
  live : s'.live = s.live
  fresh : s'.fresh = s.fresh
  mpl : s'.mpl = s.mpl
  mpNumfd : s'.mpNumfd = s.mpNumfd

theorem SameDentries.linked (hs : SameDentries s s') (h : Linked s) : Linked s' :=
  h.congr ⟨hs.live, hs.fresh, hs.mpl, fun d => by rw [hs.dentry]⟩

theorem SameDentries.balanced (hs : SameDentries s s') (h : Balanced s R) : Balanced s' R :=
  h.congr ⟨hs.live, hs.fresh, hs.mpNumfd, fun d => by rw [hs.dentry], fun d => by rw [hs.dentry]⟩
    fun d _ => by rw [State.isPositive, hs.dentry, State.isPositive]

theorem Held.change (h : Held s) (hp : p < s.procs) {q : Proc} (hprocs : s'.procs = s.procs)
    (hproc : s'.proc = Function.update s.proc p q) (hle : s.files ≤ s'.files) (hfds : ∀ fd ∈ q.fds, fd.2 < s'.files)
    (hrefs : ∀ f < s'.files, (s'.file f).refs + (s.proc p).holds f = s.holders f + q.holds f) : Held s' where
  procs e he := by
    have hne : e ≠ p := by
      intro heq
      omega
    rw [hproc, Function.update_of_ne hne]
    exact h.procs e (hprocs ▸ he)
  files e fd hfd := by
    rw [hproc, Function.update_apply] at hfd
    split at hfd
    · exact hfds fd hfd
    · exact Nat.lt_of_lt_of_le (h.files e fd hfd) hle
  refs f hf := by
    have hchange : s'.holders f + (s.proc p).holds f = s.holders f + q.holds f := by
      rw [State.holders, hprocs, hproc]
      exact sum_range_update s.proc (·.holds f) hp q
    have := hrefs f hf
    omega

theorem Held.keep (h : Held s) (hprocs : s'.procs = s.procs)
    (hproc : ∀ p, ((s'.proc p).alive = true → (s.proc p).alive = true) ∧ (s'.proc p).fds = (s.proc p).fds)
    (hle : s.files ≤ s'.files) (hrefs : ∀ f < s'.files, (s'.file f).refs = s.holders f) : Held s' where
  procs p hp := by
    obtain ⟨h₁, h₂⟩ := h.procs p (hprocs ▸ hp)
    refine ⟨?_, (hproc p).2.trans h₂⟩
    by_contra halive
    rw [(hproc p).1 (Bool.eq_true_of_not_eq_false halive)] at h₁
    cases h₁
  files p fd hfd := Nat.lt_of_lt_of_le (h.files p fd ((hproc p).2 ▸ hfd)) hle
  refs f hf := by
    rw [hrefs f hf, State.holders, State.holders, hprocs]
    exact congrArg List.sum (List.map_congr_left fun p _ => by rw [Proc.holds, Proc.holds, (hproc p).2])

theorem Proc.holds_cons (id f e : Nat) :
    ((id, f) :: q.fds).countP (·.2 == e) = q.holds e + if f = e then 1 else 0 := by
  rw [Proc.holds, List.countP_cons]
  simp

theorem Proc.holds_erase {f : Nat} (h : (id, f) ∈ q.fds) (e : Nat) :
    q.holds e = (q.fds.erase (id, f)).countP (·.2 == e) + if f = e then 1 else 0 := by
  rw [Proc.holds, (List.perm_cons_erase h).countP_eq, List.countP_cons]
  simp

theorem Held.fdDelete_refs (h : Held s) (hmem : (id, f) ∈ (s.proc p).fds) (he : e < s.files) :
    ((s.fdDelete p id f).1.file e).refs + (s.proc p).holds e =
      s.holders e + ((s.proc p).fds.erase (id, f)).countP (·.2 == e) := by
  have hdec := dec_add_one (h.file_open hmem).2
  rw [Proc.holds_erase _ hmem e, ← h.refs e he]
  show (Function.update s.file f { s.file f with refs := dec (s.file f).refs } e).refs + _ = _
  rw [Function.update_apply]
  split
  · rename_i heq
    rw [if_pos heq.symm, heq]
    show dec (s.file f).refs + _ = _
    omega
  · rename_i hne
    rw [if_neg (Ne.symm hne)]
    omega

section FileEdits
variable (hl : Linked s) (h : Counted s)

section
include h

theorem Counted.worker_ne (hp : (s.proc p).alive = true) : s.refs (s.proc p).cwd ≠ 0 := by
  have hpos : 0 < s.workers (s.proc p).cwd :=
    List.countP_pos_iff.mpr ⟨p, List.mem_range.mpr (h.held.alive_lt hp), by simp [Proc.worksIn, hp]⟩
  rw [State.refs]
  omega

omit h in
theorem State.refs_ne (hf : f < s.files) (hrefs : (s.file f).refs ≠ 0) : s.refs (s.file f).dentry ≠ 0 := by
  have hpos : 0 < s.openFiles (s.file f).dentry :=
    List.countP_pos_iff.mpr ⟨f, List.mem_range.mpr hf, by simp [File.isOn, hrefs]⟩
  rw [State.refs]
  omega

variable {id : Nat}

theorem Counted.file_ne (hf : (id, f) ∈ (s.proc p).fds) : s.refs (s.file f).dentry ≠ 0 := by
  obtain ⟨hlt, hne⟩ := h.held.file_open hf
  exact State.refs_ne hlt hne

theorem Counted.valid_cwd (hp : (s.proc p).alive = true) : s.Valid (s.proc p).cwd :=
  h.balanced.used _ (h.worker_ne hp)

theorem Counted.valid_file (hf : s.fdFind p id = some f) : s.Valid (s.file f).dentry :=
  h.balanced.used _ (h.file_ne (fdFind_mem hf))

theorem Counted.valid_open (hf : f < s.files) (hrefs : (s.file f).refs ≠ 0) : s.Valid (s.file f).dentry :=
  h.balanced.used _ (State.refs_ne hf hrefs)

theorem Counted.keep (hs : SameDentries s s') (hrefs : ∀ d, s'.refs d = s.refs d) (hheld : Held s') : Counted s' := by
  refine ⟨?_, hheld⟩
  rw [show s'.refs = s.refs from funext hrefs]
  exact hs.balanced h.balanced

theorem Counted.move (f n : Nat) : Counted (s.modifyFile f fun x => { x with seek := n }) := by
  refine h.keep ⟨rfl, rfl, rfl, rfl, rfl⟩
    (fun d => congrArg (· + s.workers d) (openFiles_same rfl (apply_update_same s.file (·.isOn d) (by rfl))))
    (h.held.keep rfl (fun _ => ⟨id, rfl⟩) le_rfl fun e he => ?_)
  rw [← h.held.refs e he]
  exact apply_update_same s.file (·.refs) (by rfl) e

theorem Counted.abandoned (p n : Nat) (x : File) : Counted (s.abandoned p n x) := by
  refine h.keep ⟨rfl, rfl, rfl, rfl, rfl⟩ (fun d => ?_) (h.held.keep rfl (fun q => ?_) (Nat.le_succ _) fun f hf => ?_)
  · have hopen : (s.abandoned p n x).openFiles d = s.openFiles d :=
      openFiles_push (x := { x with refs := 0 }) rfl rfl d
    have hwork : (s.abandoned p n x).workers d = s.workers d :=
      workers_same rfl (apply_update_same s.proc (·.worksIn d) (by rfl))
    rw [State.refs, hopen, hwork, State.refs]
  · have halive : ((s.abandoned p n x).proc q).alive = (s.proc q).alive :=
      apply_update_same s.proc (·.alive) (by rfl) q
    exact ⟨fun hq => halive ▸ hq, apply_update_same s.proc (·.fds) (by rfl) q⟩
  · show (Function.update s.file s.files _ f).refs = _
    rcases Nat.lt_succ_iff_lt_or_eq.mp hf with hf | rfl
    · rw [Function.update_of_ne (Nat.ne_of_lt hf), h.held.refs f hf]
    · rw [Function.update_self, h.held.holders_fresh]

theorem Counted.dropped (hf : s.fdFind p id = some f) (hrefs : (s.file f).refs ≠ 1) :
    Counted (s.fdDelete p id f).1 := by
  have hmem := fdFind_mem hf
  obtain ⟨hlt, hne⟩ := h.held.file_open hmem
  have hdec : dec (s.file f).refs + 1 = (s.file f).refs := dec_add_one hne
  have hon : ∀ d, File.isOn { s.file f with refs := dec (s.file f).refs } d = (s.file f).isOn d := fun d => by
    rw [File.isOn, File.isOn, bne_iff_ne.mpr hne, bne_iff_ne.mpr (show dec (s.file f).refs ≠ 0 by omega)]
  refine h.keep ⟨rfl, rfl, rfl, rfl, rfl⟩ (fun d => ?_)
    (h.held.change (h.held.proc_lt hmem) rfl rfl le_rfl
      (fun fd hfd => h.held.files p fd (List.mem_of_mem_erase hfd)) fun e he => h.held.fdDelete_refs hmem he)
  have hopen : (s.fdDelete p id f).1.openFiles d = s.openFiles d :=
    openFiles_same rfl (apply_update_same s.file (·.isOn d) (hon d))
  have hwork : (s.fdDelete p id f).1.workers d = s.workers d :=
    workers_same rfl (apply_update_same s.proc (·.worksIn d) (by rfl))
  rw [State.refs, hopen, hwork, State.refs]

theorem Counted.cloned {q : Nat} (hf : s.fdFind p id = some f) (hq : (s.proc q).alive = true) (n : Nat) :
    Counted (s.cloned f q n) := by
  obtain ⟨hlt, hne⟩ := h.held.file_open (fdFind_mem hf)
  have hon : ∀ d, File.isOn { s.file f with refs := (s.file f).refs + 1 } d = (s.file f).isOn d := fun d => by
    rw [File.isOn, File.isOn, bne_iff_ne.mpr hne, bne_iff_ne.mpr (Nat.succ_ne_zero _)]
  have hfile : (s.cloned f q n).file = Function.update s.file f { s.file f with refs := (s.file f).refs + 1 } := rfl
  have hproc : (s.cloned f q n).proc = Function.update s.proc q
    { s.proc q with fds := ((s.proc q).next, f) :: (s.proc q).fds, next := (s.proc q).next + 1 } := rfl
  refine h.keep ⟨rfl, rfl, rfl, rfl, rfl⟩ (fun d => ?_)
    (h.held.change (h.held.alive_lt hq) rfl hproc le_rfl (fun fd hfd => ?_) fun e he => ?_)
  · have hopen : (s.cloned f q n).openFiles d = s.openFiles d :=
      openFiles_same rfl (apply_update_same s.file (·.isOn d) (hon d))
    have hwork : (s.cloned f q n).workers d = s.workers d :=
      workers_same rfl (apply_update_same s.proc (·.worksIn d) (by rfl))
    rw [State.refs, hopen, hwork, State.refs]
  · rcases List.mem_cons.mp hfd with rfl | hfd
    · exact hlt
    · exact h.held.files q fd hfd
  · have hcons := (s.proc q).holds_cons (s.proc q).next f e
    refine Eq.trans ?_ (congrArg (s.holders e + ·) hcons.symm)
    rw [← h.held.refs e he, hfile, Function.update_apply]
    split
    · rename_i heq
      rw [if_pos heq.symm, heq]
      show (s.file f).refs + 1 + _ = _
      omega
    · rename_i hne
      rw [if_neg (Ne.symm hne)]
      omega

end

include hl h

theorem Counted.open (hs : SameDentries s s') (hd : s.Valid d)
    (hrefs : ∀ e, s'.refs e = s.refs e + (d == e).toNat) (hheld : Held s') : Counted (s'.dentryOpen d) := by
  have hnew : s'.refs = Function.update s.refs d (s.refs d + 1) := funext fun e => by
    rw [hrefs, Function.update_apply]
    split
    · rename_i heq
      simp [heq]
    · rename_i hne
      rw [beq_eq_false_iff_ne.mpr (Ne.symm hne)]
      rfl
  have hvalid : s'.Valid d := ⟨hs.live ▸ hd.live, by rw [State.isPositive, hs.dentry]; exact hd.positive⟩
  refine ⟨?_, hheld.procs, hheld.files, hheld.refs⟩
  show Balanced _ s'.refs
  rw [hnew]
  exact (hs.balanced h.balanced).open (hs.linked hl) hvalid

theorem Counted.close (hs : SameDentries s s') (hd : s.refs d ≠ 0)
    (hrefs : ∀ e, s'.refs e + (d == e).toNat = s.refs e) (hheld : Held s') : Counted (s'.dentryClose d) := by
  have hnew : s'.refs = Function.update s.refs d (s.refs d - 1) := funext fun e => by
    rw [Function.update_apply, ← hrefs e]
    split
    · rename_i heq
      rw [heq, ← hrefs d]
      simp
    · rename_i hne
      rw [beq_eq_false_iff_ne.mpr (Ne.symm hne)]
      rfl
  refine ⟨?_, hheld.procs, hheld.files, hheld.refs⟩
  show Balanced _ s'.refs
  rw [hnew]
  exact (hs.balanced h.balanced).close (hs.linked hl) hd

theorem Counted.opened (hp : (s.proc p).alive = true) (hd : s.Valid dp) (flags seek n : Nat) :
    Counted (s.opened p dp flags seek n) := by
  have hlt := h.held.alive_lt hp
  obtain ⟨q, hq⟩ : ∃ q : Proc, q =
    { s.proc p with fds := ((s.proc p).next, s.files) :: (s.proc p).fds, next := (s.proc p).next + 1 } := ⟨_, rfl⟩
  obtain ⟨t, ht, hs, hprocs, hproc, hfiles, hfile⟩ : ∃ t, s.opened p dp flags seek n = t.dentryOpen dp ∧
      SameDentries s t ∧ t.procs = s.procs ∧ t.proc = Function.update s.proc p q ∧ t.files = s.files + 1 ∧
      t.file = Function.update s.file s.files ⟨1, flags, seek, dp⟩ :=
    ⟨({ s with mems := n, files := s.files + 1 }.modifyFile s.files fun _ => ⟨1, flags, seek, dp⟩).modifyProc p fun q =>
      { q with fds := (q.next, s.files) :: q.fds, next := q.next + 1 }, rfl, ⟨rfl, rfl, rfl, rfl, rfl⟩, rfl, hq ▸ rfl,
      rfl, rfl⟩
  rw [ht]
  refine h.open hl hs hd (fun e => ?_) (h.held.change hlt hprocs hproc (by omega) (fun fd hfd => ?_) fun f hf => ?_)
  · have hopen := openFiles_push hfiles hfile e
    have hwork := workers_change hprocs hproc hlt e
    rw [show q.worksIn e = (s.proc p).worksIn e by rw [hq]; rfl] at hwork
    rw [show File.isOn ⟨1, flags, seek, dp⟩ e = (dp == e) by simp [File.isOn]] at hopen
    rw [State.refs, State.refs]
    omega
  · rw [hq] at hfd
    rcases List.mem_cons.mp hfd with rfl | hfd
    · exact hfiles ▸ Nat.lt_succ_self _
    · exact hfiles ▸ Nat.lt_succ_of_lt (h.held.files p fd hfd)
  · have hcons : q.holds f = (s.proc p).holds f + if s.files = f then 1 else 0 := by
      rw [hq]
      exact (s.proc p).holds_cons (s.proc p).next s.files f
    rw [hfiles] at hf
    rw [hcons, hfile]
    rcases Nat.lt_succ_iff_lt_or_eq.mp hf with hf | rfl
    · rw [Function.update_of_ne (Nat.ne_of_lt hf), if_neg (Nat.ne_of_gt hf), h.held.refs f hf, Nat.add_zero]
    · rw [Function.update_self, h.held.holders_fresh, if_pos (Eq.refl s.files)]
      show 1 + _ = _
      omega

theorem Counted.closed {id : Nat} (hf : s.fdFind p id = some f) (hone : (s.file f).refs = 1) :
    Counted ((s.fdDelete p id f).1.dentryClose (s.file f).dentry) := by
  have hmem := fdFind_mem hf
  have hp := h.held.proc_lt hmem
  obtain ⟨hlt, -⟩ := h.held.file_open hmem
  refine h.close hl ⟨rfl, rfl, rfl, rfl, rfl⟩ (h.file_ne hmem) (fun e => ?_)
    (h.held.change hp rfl rfl le_rfl (fun fd hfd => h.held.files p fd (List.mem_of_mem_erase hfd)) fun e he =>
      h.held.fdDelete_refs hmem he)
  have hopen := openFiles_change (s := s) (x := { s.file f with refs := dec (s.file f).refs })
    (show (s.fdDelete p id f).1.files = s.files from rfl) rfl hlt e
  have hwork : (s.fdDelete p id f).1.workers e = s.workers e :=
    workers_same rfl (apply_update_same s.proc (·.worksIn e) (by rfl))
  rw [show File.isOn { s.file f with refs := dec (s.file f).refs } e = false by simp [File.isOn, hone, dec],
    show (s.file f).isOn e = ((s.file f).dentry == e) by simp [File.isOn, hone]] at hopen
  rw [State.refs, State.refs, hwork]
  simp only [Bool.toNat_false] at hopen
  omega

theorem Counted.chdir (hp : (s.proc p).alive = true) (hd : s.Valid d) (hne : (s.proc p).cwd ≠ d) :
    Counted (((s.modifyProc p fun q => { q with cwd := d }).dentryOpen d).dentryClose (s.proc p).cwd) := by
  have hlt := h.held.alive_lt hp
  obtain ⟨t, ht, hs, hprocs, hproc⟩ : ∃ t, (s.modifyProc p fun q => { q with cwd := d }) = t ∧ SameDentries s t ∧
      t.procs = s.procs ∧ t.proc = Function.update s.proc p { s.proc p with cwd := d } :=
    ⟨_, rfl, ⟨rfl, rfl, rfl, rfl, rfl⟩, rfl, rfl⟩
  have hheld : Held t := by
    refine h.held.keep hprocs (fun q => ?_) (by rw [← ht]; exact le_rfl) fun f hf => ?_
    · have halive : (t.proc q).alive = (s.proc q).alive := by
        rw [hproc]
        exact apply_update_same s.proc (·.alive) (by rfl) q
      rw [halive, hproc]
      exact ⟨id, apply_update_same s.proc (·.fds) (by rfl) q⟩
    · rw [← ht] at hf ⊢
      exact h.held.refs f hf
  have hopened := (hs.balanced h.balanced).open (hs.linked hl) (d := d)
    ⟨hs.live ▸ hd.live, by rw [State.isPositive, hs.dentry]; exact hd.positive⟩
  have hlinked : Linked (t.dentryOpen d) :=
    (hs.linked hl).congr ⟨rfl, rfl, rfl,
      modify_same t d (fun x => { x with numfd := x.numfd + 1 }) Dentry.shape fun _ => rfl⟩
  have hcwd := h.worker_ne hp
  have hclosed := hopened.close hlinked (d := (s.proc p).cwd) (by rwa [Function.update_of_ne hne])
  rw [ht]
  refine ⟨?_, hheld.procs, hheld.files, hheld.refs⟩
  convert hclosed using 1
  funext e
  have hwork := workers_change hprocs hproc hlt e
  rw [show (s.proc p).worksIn e = ((s.proc p).cwd == e) by simp [Proc.worksIn, hp],
    show Proc.worksIn { s.proc p with cwd := d } e = (d == e) by simp [Proc.worksIn, hp]] at hwork
  show t.openFiles e + t.workers e = _
  rw [show t.openFiles e = s.openFiles e by rw [← ht]; rfl]
  rw [Function.update_of_ne hne]
  by_cases hec : e = (s.proc p).cwd
  · rw [hec, Function.update_self, State.refs]
    rw [hec, beq_self_eq_true, beq_eq_false_iff_ne.mpr hne.symm] at hwork
    simp only [Bool.toNat_true, Bool.toNat_false] at hwork
    omega
  · rw [Function.update_of_ne hec]
    rw [beq_eq_false_iff_ne.mpr (Ne.symm hec)] at hwork
    by_cases hed : e = d
    · rw [hed, Function.update_self, State.refs]
      rw [hed, beq_self_eq_true] at hwork
      simp only [Bool.toNat_true, Bool.toNat_false] at hwork
      omega
    · rw [Function.update_of_ne hed, State.refs]
      rw [beq_eq_false_iff_ne.mpr (Ne.symm hed)] at hwork
      omega

theorem Counted.started (parent : Option Nat) (hparent : ∀ p, parent = some p → (s.proc p).alive = true) :
    Counted (s.procStart parent) := by
  obtain ⟨cwd, hvalid, hcwd⟩ : ∃ cwd, s.Valid cwd ∧ s.procStart parent =
      ({ s with procs := s.procs + 1 }.modifyProc s.procs fun _ => ⟨true, cwd, [], 0⟩).dentryOpen cwd := by
    cases parent with
    | none => exact ⟨root, ⟨hl.root_live, hl.root_positive⟩, rfl⟩
    | some p => exact ⟨(s.proc p).cwd, h.valid_cwd (hparent p rfl), rfl⟩
  obtain ⟨t, ht, hs, hprocs, hproc, hfiles, hfile⟩ : ∃ t, s.procStart parent = t.dentryOpen cwd ∧ SameDentries s t ∧
      t.procs = s.procs + 1 ∧ t.proc = Function.update s.proc s.procs ⟨true, cwd, [], 0⟩ ∧ t.files = s.files ∧
      t.file = s.file :=
    ⟨{ s with procs := s.procs + 1 }.modifyProc s.procs fun _ => ⟨true, cwd, [], 0⟩, hcwd,
      ⟨rfl, rfl, rfl, rfl, rfl⟩, rfl, rfl, rfl, rfl⟩
  rw [ht]
  refine h.open hl hs hvalid (fun e => ?_) ⟨fun p hp => ?_, fun p fd hfd => ?_, fun f hf => ?_⟩
  · have hwork := workers_push hprocs hproc e
    rw [show Proc.worksIn ⟨true, cwd, [], 0⟩ e = (cwd == e) by simp [Proc.worksIn]] at hwork
    rw [State.refs, State.refs, hwork, openFiles_same hfiles fun f => by rw [hfile], Nat.add_assoc]
  · rw [hprocs] at hp
    rw [hproc, Function.update_of_ne (by omega)]
    exact h.held.procs p (by omega)
  · rw [hproc, Function.update_apply] at hfd
    split at hfd
    · cases hfd
    · exact hfiles ▸ h.held.files p fd hfd
  · rw [hfile, h.held.refs f (hfiles ▸ hf), State.holders, State.holders, hprocs, hproc]
    exact (sum_range_push s.proc (·.holds f) s.procs ⟨true, cwd, [], 0⟩).symm

theorem Counted.ended (hp : (s.proc p).alive = true) :
    Counted ((s.modifyProc p fun q => { q with alive := false }).dentryClose (s.proc p).cwd) := by
  have hlt := h.held.alive_lt hp
  obtain ⟨t, ht, hs, hprocs, hproc⟩ : ∃ t, (s.modifyProc p fun q => { q with alive := false }) = t ∧ SameDentries s t ∧
      t.procs = s.procs ∧ t.proc = Function.update s.proc p { s.proc p with alive := false } :=
    ⟨_, rfl, ⟨rfl, rfl, rfl, rfl, rfl⟩, rfl, rfl⟩
  have hfile : t.file = s.file ∧ t.files = s.files := by
    rw [← ht]
    exact ⟨rfl, rfl⟩
  rw [ht]
  refine h.close hl hs (h.worker_ne hp) (fun e => ?_) (h.held.keep hprocs (fun q => ?_) hfile.2.ge fun f hf => ?_)
  · have hwork := workers_change hprocs hproc hlt e
    rw [show (s.proc p).worksIn e = ((s.proc p).cwd == e) by simp [Proc.worksIn, hp],
      show Proc.worksIn { s.proc p with alive := false } e = false by simp [Proc.worksIn]] at hwork
    rw [State.refs, State.refs, openFiles_same hfile.2 fun f => by rw [hfile.1], Nat.add_assoc, hwork]
    rfl
  · rw [hproc]
    refine ⟨fun halive => ?_, apply_update_same s.proc (·.fds) (by rfl) q⟩
    rw [Function.update_apply] at halive
    split at halive
    · cases halive
    · exact halive
  · rw [hfile.1]
    exact h.held.refs f (hfile.2 ▸ hf)

theorem FileEdit.counted (he : FileEdit s s') : Counted s' := by
  cases he with
  | move f n => exact h.move f n
  | opened hp hd _ seek n => exact h.opened hl hp hd _ seek n
  | abandoned p n x => exact h.abandoned p n x
  | dropped hf hrefs => exact h.dropped hf hrefs
  | closed hf hrefs => exact h.closed hl hf hrefs
  | cloned hf hq n => exact h.cloned hf hq n
  | chdir hp hd hne => exact h.chdir hl hp hd hne
  | started parent hp => exact h.started hl parent hp
  | ended hp => exact h.ended hl hp

end FileEdits

theorem Apart.refs (ha : Apart s s') : s'.refs = s.refs := by
  funext d
  rw [State.refs, State.openFiles, State.workers, ha.file, ha.files, ha.proc, ha.procs]
  rfl

theorem Apart.held (ha : Apart s s') (h : Held s) : Held s' :=
  h.keep ha.procs (fun p => by rw [ha.proc]; exact ⟨id, rfl⟩) ha.files.ge fun f hf => by
    rw [ha.file]
    exact h.refs f (ha.files ▸ hf)

section DentryEdits
variable {ip : Option Inode} (hl : Linked s) (h : Counted s) {mp : Mount}
include hl h

theorem Counted.append (ha : Appended s parent name ip s') (hp : s.live parent = true) (hn : name.length < MAX_LFN) :
    Counted s' := by
  have hfresh : s.live s.fresh ≠ true := fun hlive => Nat.lt_irrefl _ (hl.bound _ hlive)
  have hnew : (s'.dentry s.fresh).numfd = 0 := by
    rw [ha.item, State.newDentry, setName_short _ hn]
    rfl
  have hold : ∀ d ≠ s.fresh, (s'.dentry d).numfd = (s.dentry d).numfd ∧ s'.live d = s.live d := fun d hd => by
    rw [ha.live, Function.update_of_ne hd]
    by_cases hdp : d = parent
    · rw [hdp, ha.folder]
      simp
    · rw [ha.other d hd hdp]
      exact ⟨rfl, rfl⟩
  refine ⟨?_, ha.toApart.held h.held⟩
  rw [ha.toApart.refs]
  refine ⟨fun d hd => ?_, fun m hm hmp => ?_, fun d hd => ?_⟩
  · by_cases hdf : d = s.fresh
    · rw [hdf, hnew]
      by_contra hne
      exact hfresh (h.balanced.used _ (Ne.symm hne)).live
    · rw [(hold d hdf).1]
      exact h.balanced.numfd d ((hold d hdf).2 ▸ hd)
  · have hmf : m ≠ s.fresh := by
      rintro rfl
      rw [ha.item, State.newDentry] at hmp
      exact hfresh (hmp ▸ (hl.mount parent hp).1)
    rw [(ha.kept hmf).2.2.1] at hmp
    have hsum : s'.mountRefs m = s.mountRefs m := by
      rw [State.mountRefs, ha.fresh, List.range_succ, List.map_append, List.sum_append, State.mountRefs,
        List.map_congr_left fun d hd => show s'.mountRef m d = s.mountRef m d from ?_]
      · simp [State.mountRef, hnew]
      · have hdf := Nat.ne_of_lt (List.mem_range.mp hd)
        rw [State.mountRef, State.mountRef, (hold d hdf).1, (hold d hdf).2, (ha.kept hdf).2.2.1]
    rw [ha.mpNumfd, hsum]
    exact h.balanced.mounts m ((hold m hmf).2 ▸ hm) hmp
  · obtain ⟨h₁, h₂⟩ := h.balanced.used d hd
    have hdf : d ≠ s.fresh := fun heq => hfresh (heq ▸ h₁)
    exact ⟨(hold d hdf).2 ▸ h₁, (ha.kept hdf).2.2.2 ▸ h₂⟩

omit hl in
theorem Counted.flip (hf : Flipped s dp ip s') (hunused : s.refs dp = 0) : Counted s' := by
  refine ⟨?_, hf.toApart.held h.held⟩
  rw [hf.toApart.refs]
  exact h.balanced.congr ⟨hf.live, hf.fresh, hf.mpNumfd, fun d => (hf.kept d).2.2.1, fun d => (hf.kept d).2.2.2.2⟩
    fun d hd => hf.isPositive_ne fun heq => hd (heq ▸ hunused)

omit hl in
theorem Counted.rename {ip : Inode} (hr : Renamed s src dst ip s')
    (hunused : s.refs dst = 0) (hd : s.live dst = true) : Counted s' := by
  have hnumfd : ∀ d, (s'.dentry d).numfd = (s.dentry d).numfd := fun d => by
    by_cases hds : d = src
    · rw [hds, hr.item]
    · rw [hr.folder d hds]
      dsimp only
      split <;> split <;> simp
  have hmp : ∀ d, (s'.dentry d).mp = (s.dentry d).mp := fun d => by
    by_cases hds : d = src
    · rw [hds, hr.item]
    · exact (hr.kept hds).2.2.1
  have hlive : ∀ d ≠ dst, s'.live d = s.live d := fun d hne => by rw [hr.live, Function.update_of_ne hne]
  have hlive' : ∀ {d}, s'.live d = true → s.live d = true := fun {d} hd => by
    rw [hr.live, Function.update_apply] at hd
    split at hd
    · cases hd
    · exact hd
  refine ⟨?_, hr.toApart.held h.held⟩
  rw [hr.toApart.refs]
  refine ⟨fun d hd => ?_, fun m hm hmp' => ?_, fun d hd => ?_⟩
  · rw [hnumfd]
    exact h.balanced.numfd d (hlive' hd)
  · rw [hr.mpNumfd, mountRefs_congr hr.fresh fun d _ => ?_]
    · exact h.balanced.mounts m (hlive' hm) (hmp m ▸ hmp')
    · rw [State.mountRef, State.mountRef, hnumfd, hmp]
      by_cases hdd : d = dst
      · rw [hdd, h.balanced.numfd dst hd, hunused, ite_self, ite_self]
      · rw [hlive d hdd]
  · obtain ⟨h₁, h₂⟩ := h.balanced.used d hd
    have hne : d ≠ dst := fun heq => hd (heq ▸ hunused)
    refine ⟨hlive d hne ▸ h₁, ?_⟩
    by_cases hds : d = src
    · rw [hds, State.isPositive, hr.item]
      rfl
    · rw [(hr.kept hds).2.2.2]
      exact h₂

theorem Counted.mountRoot {target : Name} (fs data : Nat) (inode : Inode) :
    Counted (s.mounted target fs data inode) := by
  obtain ⟨s', hs'⟩ : ∃ s', s' = s.mounted target fs data inode := ⟨_, rfl⟩
  have hfresh : s.live s.fresh ≠ true := fun hlive => Nat.lt_irrefl _ (hl.bound _ hlive)
  have hold : ∀ {d}, d ≠ s.fresh → s'.dentry d = s.dentry d ∧ s'.live d = s.live d := fun hd =>
    hs' ▸ ⟨Function.update_of_ne hd _ _, Function.update_of_ne hd _ _⟩
  have hitem : s'.dentry s.fresh = { Dentry.zero with
      name := target, inode := some { inode with ops := fs, data }, parent := root, mp := s.fresh } :=
    hs' ▸ Function.update_self _ _ _
  have hrefs : s'.refs = s.refs := hs' ▸ rfl
  have hsum : ∀ m, s'.mountRefs m = s.mountRefs m := fun m => by
    rw [State.mountRefs, show s'.fresh = s.fresh + 1 from hs' ▸ rfl, List.range_succ, List.map_append, List.sum_append,
      State.mountRefs, List.map_congr_left fun d hd => show s'.mountRef m d = s.mountRef m d from ?_]
    · simp [State.mountRef, hitem, Dentry.zero]
    · have hdf := Nat.ne_of_lt (List.mem_range.mp hd)
      rw [State.mountRef, State.mountRef, (hold hdf).1, (hold hdf).2]
  have hunref : s.refs s.fresh = 0 := by
    by_contra hne
    exact hfresh (h.balanced.used _ hne).live
  have hempty : s.mountRefs s.fresh = 0 := by
    refine List.sum_eq_zero fun n hn => ?_
    obtain ⟨d, -, rfl⟩ := List.mem_map.mp hn
    rw [State.mountRef]
    split
    · rename_i hd
      simp only [Bool.and_eq_true, beq_iff_eq] at hd
      exact absurd (hd.2 ▸ (hl.mount d hd.1).1) hfresh
    · rfl
  rw [← hs']
  refine ⟨?_, h.held.keep (hs' ▸ rfl) (fun p => hs' ▸ ⟨id, rfl⟩) (hs' ▸ le_rfl) fun f hf => ?_⟩
  · rw [hrefs]
    refine ⟨fun d hd => ?_, fun m hm hmp => ?_, fun d hd => ?_⟩
    · by_cases hdf : d = s.fresh
      · rw [hdf, hitem, hunref]
        rfl
      · rw [(hold hdf).1]
        exact h.balanced.numfd d ((hold hdf).2 ▸ hd)
    · rw [hsum, show s'.mpNumfd = Function.update s.mpNumfd s.fresh 0 from hs' ▸ rfl]
      by_cases hmf : m = s.fresh
      · rw [hmf, Function.update_self, hempty]
      · rw [Function.update_of_ne hmf]
        exact h.balanced.mounts m ((hold hmf).2 ▸ hm) ((hold hmf).1 ▸ hmp)
    · obtain ⟨h₁, h₂⟩ := h.balanced.used d hd
      have hdf : d ≠ s.fresh := fun heq => hfresh (heq ▸ h₁)
      exact ⟨(hold hdf).2 ▸ h₁, by rw [State.isPositive, (hold hdf).1]; exact h₂⟩
  · subst hs'
    exact h.held.refs f hf

theorem Counted.unmounted_unused (hn : s.mpNumfd mp.dentry = 0) (hd : s.live d = true)
    (hmp : (s.dentry d).mp = mp.dentry) : s.refs d = 0 := by
  have hle := h.balanced.le_mount hl hd
  rw [hmp, hn] at hle
  exact Nat.le_zero.mp hle

theorem Counted.unmount (hm : mp ∈ s.mpl) (hn : s.mpNumfd mp.dentry = 0) : Counted (s.unmounted mp) := by
  have hlive := fun {d} => hl.unmounted_live hm (d := d)
  refine ⟨⟨fun d hd => h.balanced.numfd d (hlive.mp hd).1, fun m hm' hmp => ?_, fun d hd => ?_⟩,
    h.held.procs, h.held.files, h.held.refs⟩
  · obtain ⟨hml, hne⟩ := hlive.mp hm'
    have hmp : (s.dentry m).mp = m := hmp
    refine (h.balanced.mounts m hml hmp).trans 
      (mountRefs_congr (show (s.unmounted mp).fresh = s.fresh from rfl) fun d _ => ?_).symm
    -- the dentries of `m` are none of the freed ones
    have heq : ((s.unmounted mp).live d && (s.dentry d).mp == m) = (s.live d && (s.dentry d).mp == m) := by
      by_cases hdm : (s.dentry d).mp = m
      · have : (s.unmounted mp).live d = s.live d :=
          Bool.eq_iff_iff.mpr (hlive.trans (and_iff_left (hdm.trans_ne (hmp ▸ hne))))
        rw [this]
      · rw [beq_eq_false_iff_ne.mpr hdm, Bool.and_false, Bool.and_false]
    exact congrArg (fun b : Bool => if b then (s.dentry d).numfd else 0) heq
  · have hd : s.refs d ≠ 0 := hd
    obtain ⟨h₁, h₂⟩ := h.balanced.used d hd
    exact ⟨hlive.mpr ⟨h₁, fun hmp => hd (h.unmounted_unused hl hn h₁ hmp)⟩, h₂⟩

end DentryEdits

theorem Counted.modify (h : Counted s) (φ : Φ) {g : Dentry → Dentry} (hmp : (g (s.dentry d)).mp = (s.dentry d).mp)
    (hnumfd : (g (s.dentry d)).numfd = (s.dentry d).numfd)
    (hpos : (g (s.dentry d)).isPositive = (s.dentry d).isPositive) : Counted ({ s with store := φ }.modify d g) :=
  ⟨h.balanced.congr ⟨rfl, rfl, rfl, apply_update_same s.dentry (·.mp) hmp, apply_update_same s.dentry (·.numfd) hnumfd⟩
    fun e _ => apply_update_same s.dentry (·.isPositive) hpos e, h.held.procs, h.held.files, h.held.refs⟩

/-- What holds in all states: the dentries form a tree and all counts are right. -/
structure Sound (s : State Φ) : Prop where
  linked : Linked s
  counted : Counted s

theorem Sound.unused (h : Sound s) (hd : s.live d = true) (hn : (s.dentry d).numfd = 0) : s.refs d = 0 :=
  (h.counted.balanced.numfd d hd).symm.trans hn

theorem Edit.counted (he : Edit s s') (h : Sound s) : Counted s' := by
  have hc := h.counted
  cases he with
  | heap | quiet => exact ⟨⟨hc.balanced.numfd, hc.balanced.mounts, fun d hd =>
      ⟨(hc.balanced.used d hd).live, (hc.balanced.used d hd).positive⟩⟩, hc.held.procs, hc.held.files, hc.held.refs⟩
  | append ha hp hn => exact hc.append h.linked ha hp.live hn
  | @make dp flags r s' hf hm =>
    refine hc.flip hf ?_
    by_contra hne
    exact absurd (hm.negative.symm.trans (hc.balanced.used _ hne).positive) (by decide)
  | drop hf hd => exact hc.flip hf (h.unused hd.live hd.unused)
  | rename hr hm => exact hc.rename hr (h.unused hm.replaced.live hm.unused) hm.replaced.live
  | @inode d φ ip hd => exact hc.modify φ rfl rfl hd.positive.symm
  | mark => exact hc.modify s.store rfl rfl rfl
  | files hf => exact hf.counted h.linked hc

theorem Edit.sound (he : Edit s s') (h : Sound s) : Sound s' := ⟨he.linked h.linked, he.counted h⟩

theorem Edits.sound (he : Edits s s') (h : Sound s) : Sound s' := by
  induction he with
  | refl => exact h
  | tail _ he ih => exact he.sound ih

theorem MountEdit.sound (he : MountEdit s s') (h : Sound s) : Sound s' := by
  refine ⟨he.linked h.linked, ?_⟩
  have hc := h.counted
  cases he with
  | call | heap => exact ⟨⟨hc.balanced.numfd, hc.balanced.mounts, fun d hd =>
      ⟨(hc.balanced.used d hd).live, (hc.balanced.used d hd).positive⟩⟩, hc.held.procs, hc.held.files, hc.held.refs⟩
  | mount hn fs data inode => exact hc.mountRoot h.linked fs data inode
  | umount hm hn => exact hc.unmount h.linked hm hn

def Changes : State Φ → State Φ → Prop := Relation.ReflTransGen fun s s' => Edit s s' ∨ MountEdit s s'

theorem Edits.changes (he : Edits s s') : Changes s s' := Relation.ReflTransGen.mono (fun _ _ => .inl) _ _ he

theorem Changes.sound (hc : Changes s s') (h : Sound s) : Sound s' := by
  induction hc with
  | refl => exact h
  | tail _ he ih => exact he.elim (fun he => he.sound ih) fun he => he.sound ih

end Novino.Vfs
