import Novino.Theorems.References

/-! Walks along a path as sequences of edits. A walk only adds dentries, and a second one finds the same dentry in the
    cache. -/

namespace Novino.Vfs
open Ext2 (Name ENOENT)

variable {Φ : Type} {s t u : State Φ} {d c p parent : Nat} {name : Name} {ip : Option Inode}

/-! ### What a walk keeps -/

structure Grown (s t : State Φ) : Prop extends Apart s t where
  live : ∀ d, s.live d = true → t.live d = true
  inode : ∀ d, s.live d = true → (t.dentry d).inode = (s.dentry d).inode
  name : ∀ d, s.live d = true → (t.dentry d).name = (s.dentry d).name
  up : ∀ d, s.live d = true → t.up d = s.up d
  children : ∀ d, s.live d = true → ∀ c ∈ (s.dentry d).children, c ∈ (t.dentry d).children

theorem Grown.refl (s : State Φ) : Grown s s :=
  ⟨Apart.refl s, fun _ hd => hd, fun _ _ => rfl, fun _ _ => rfl, fun _ _ => rfl, fun _ _ _ hc => hc⟩

theorem Grown.trans (h : Grown s t) (h' : Grown t u) : Grown s u where
  toApart := h.toApart.trans h'.toApart
  live d hd := h'.live d (h.live d hd)
  inode d hd := (h'.inode d (h.live d hd)).trans (h.inode d hd)
  name d hd := (h'.name d (h.live d hd)).trans (h.name d hd)
  up d hd := (h'.up d (h.live d hd)).trans (h.up d hd)
  children d hd c hc := h'.children d (h.live d hd) c (h.children d hd c hc)

theorem Apart.stored (h : Apart s t) (φ : Φ) : Apart s { t with store := φ } :=
  ⟨h.table, h.fsl, h.mpl, h.mpNumfd, h.file, h.files, h.proc, h.procs, h.mem, h.now⟩

section
variable (h : Grown s t)
include h

theorem Grown.stored (φ : Φ) : Grown s { t with store := φ } :=
  ⟨h.toApart.stored φ, h.live, h.inode, h.name, h.up, h.children⟩

theorem Grown.heap (n : Nat) : Grown s { t with mems := n, fault := true } :=
  ⟨⟨h.table, h.fsl, h.mpl, h.mpNumfd, h.file, h.files, h.proc, h.procs, h.mem, h.now⟩, h.live, h.inode, h.name, h.up,
    h.children⟩

theorem Grown.isPositive (hd : s.live d = true) : t.isPositive d = s.isPositive d := by
  rw [State.isPositive, Dentry.isPositive, h.inode d hd, State.isPositive, Dentry.isPositive]

theorem Grown.isDir (hd : s.live d = true) : t.isDir d = s.isDir d := by
  rw [State.isDir, State.inode, h.inode d hd, State.isDir, State.inode]

theorem Grown.valid (hd : s.Valid d) : t.Valid d :=
  ⟨h.live d hd.live, (h.isPositive hd.live).trans hd.positive⟩

theorem Grown.validDir (hd : s.ValidDir d) : t.ValidDir d := by
  refine ⟨h.valid hd.toValid, ?_, hd.ne_root⟩
  rw [State.Directory, h.isDir hd.live, h.files, h.file]
  exact hd.directory

theorem Grown.findMp (name : Name) : t.findMp name = s.findMp name := by
  rw [State.findMp, h.mpl, State.findMp]

end

theorem Appended.grown (hl : Linked s) (ha : Appended s parent name ip t) : Grown s t := by
  have hold : ∀ {d}, s.live d = true → d ≠ s.fresh := fun hd => Nat.ne_of_lt (hl.bound _ hd)
  refine ⟨ha.toApart, fun d hd => ?_, fun d hd => ?_, fun d hd => (ha.kept (hold hd)).1, fun d hd =>
    (ha.kept (hold hd)).2.1, fun d hd c hc => ?_⟩
  · rw [ha.live, Function.update_of_ne (hold hd)]
    exact hd
  · by_cases hdp : d = parent
    · rw [hdp, ha.folder]
      simp
    · rw [ha.other d (hold hd) hdp]
  · by_cases hdp : d = parent
    · rw [hdp] at hc
      rw [hdp, ha.folder]
      exact List.mem_cons_of_mem _ hc
    · rw [ha.other d (hold hd) hdp]
      exact hc

theorem Linked.dcacheLookup_child (h : Linked s) (hp : s.live parent = true) (hc : c ∈ (s.dentry parent).children) :
    s.dcacheLookup parent (s.dentry c).name = some c := by
  obtain ⟨c', hc'⟩ := Option.isSome_iff_exists.mp (dcacheLookup_isSome.mpr ⟨c, hc, rfl⟩)
  obtain ⟨hmem, hname⟩ := dcacheLookup_eq_some hc'
  rw [hc', h.names parent hp c' hmem c hc hname]

theorem dcacheAppend_store (φ : Φ) : { s with store := φ }.dcacheAppend parent name ip =
    ({ (s.dcacheAppend parent name ip).1 with store := φ }, (s.dcacheAppend parent name ip).2) := by
  unfold State.dcacheAppend State.alloc
  cases s.mem s.mems <;> rfl

structure State.Child (s : State Φ) (parent : Nat) (name : Name) (c : Nat) : Prop where
  live : s.live c = true
  mem : c ∈ (s.dentry parent).children
  name_eq : (s.dentry c).name = name

theorem Grown.child (h : Grown s t) (hp : s.live parent = true) (hc : s.Child parent name c) : t.Child parent name c :=
  ⟨h.live c hc.live, h.children parent hp c hc.mem, (h.name c hc.live).trans hc.name_eq⟩

theorem Linked.dcacheLookup_eq (h : Linked s) (hp : s.live parent = true) (hc : s.Child parent name c) :
    s.dcacheLookup parent name = some c := hc.name_eq ▸ h.dcacheLookup_child hp hc.mem

section Child
variable (h : Sound s) (hp : s.ValidDir parent) (hn : name.length < MAX_LFN) (hdot : Ordinary name)
include h hp hn hdot

theorem dcacheAppend_edits (hnew : s.dcacheLookup parent name = none) (ho : Origin s parent name ip) {φ : Φ}
    (hφ : ((s.ops parent).lookup s.store (s.inode parent) name).1 = φ) :
    let r := { s with store := φ }.dcacheAppend parent name ip
    Edits s r.1 ∧ Grown s r.1 ∧ ∀ c, r.2 = some c → r.1.Child parent name c := by
  intro r
  have hr : r = _ := dcacheAppend_store φ
  have hpf : parent ≠ s.fresh := Nat.ne_of_lt (h.linked.bound _ hp.live)
  rcases dcacheAppend_cases hpf name ip with ⟨-, heq⟩ | ⟨s', -, heq, ha⟩
  · rw [hr, heq]
    have hq : Edit s { s with store := φ } := .quiet (hφ ▸ .lookup hp hdot)
    exact ⟨.tail (.single hq) (.heap (s.mems + 1)), ((Grown.refl s).stored φ).heap _, nofun⟩
  · rw [hr, heq]
    have hg := ha.grown h.linked
    have hp' := hg.validDir hp
    have hinode : s'.inode parent = s.inode parent := ha.inode_eq hpf
    have hq : Quiet s' φ := by
      have hq := Quiet.lookup hp' hdot
      rw [State.ops, hinode, ha.table, ha.store] at hq
      exact hφ ▸ hq
    refine ⟨.tail (.single (.append ha hp hn hdot (dcacheLookup_eq_none.mp hnew) ho)) (.quiet hq), hg.stored φ,
      fun c hc => ?_⟩
    obtain rfl : s.fresh = c := Option.some.inj hc
    refine ⟨?_, ?_, ?_⟩
    · show s'.live s.fresh = true
      rw [ha.live, Function.update_self]
    · show s.fresh ∈ (s'.dentry parent).children
      rw [ha.folder]
      exact List.mem_cons_self
    · show (s'.dentry s.fresh).name = name
      rw [ha.item, State.newDentry]
      simp

theorem walkChild_edits : Edits s (s.walkChild parent name).1 ∧ Grown s (s.walkChild parent name).1 ∧
    ∀ c, (s.walkChild parent name).2 = .ok c → (s.walkChild parent name).1.Child parent name c := by
  unfold State.walkChild
  cases hlook : s.dcacheLookup parent name with
  | some child =>
    refine ⟨.refl, Grown.refl s, fun c hc => ?_⟩
    cases hc
    obtain ⟨hmem, hname⟩ := dcacheLookup_eq_some hlook
    exact ⟨(h.linked.child parent hp.live child hmem).1, hmem, hname⟩
  | none =>
    rcases hr : (s.ops parent).lookup s.store (s.inode parent) name with ⟨φ, r⟩
    have hφ : ((s.ops parent).lookup s.store (s.inode parent) name).1 = φ := by rw [hr]
    have appended : ∀ ip, Origin s parent name ip → ∃ t o, { s with store := φ }.dcacheAppend parent name ip = (t, o) ∧
        Edits s t ∧ Grown s t ∧ ∀ c, o = some c → t.Child parent name c := fun ip ho =>
      ⟨_, _, rfl, dcacheAppend_edits h hp hn hdot hlook ho hφ⟩
    dsimp only
    cases r with
    | ok ip =>
      obtain ⟨t, o, hto, he, hg, hchild⟩ := appended (some ip) (.found (by rw [hr]))
      dsimp only
      rw [hto]
      cases o with
      | none => exact ⟨he, hg, nofun⟩
      | some child => exact ⟨he, hg, fun c hc => hchild c (congrArg some (Except.ok.inj hc))⟩
    | error e =>
      dsimp only
      split
      · rename_i heq
        obtain ⟨t, o, hto, he, hg, hchild⟩ := appended none (.missing (by rw [hr, heq]))
        rw [hto]
        cases o with
        | none => exact ⟨he, hg, nofun⟩
        | some child => exact ⟨he, hg, fun c hc => hchild c (congrArg some (Except.ok.inj hc))⟩
      · exact ⟨.single (.quiet (hφ ▸ .lookup hp hdot)), (Grown.refl s).stored φ, nofun⟩

end Child

open State (walkLoop)

/-- A dentry that a walk ended at: one with an inode, or an entry of a directory that does not exist. -/
structure State.Found (s : State Φ) (mustexist : Bool) (d : Nat) : Prop where
  live : s.live d = true
  negative : s.isPositive d = false → mustexist = false ∧ s.ValidDir (s.up d)

theorem State.Found.valid (h : s.Found true d) : s.Valid d :=
  ⟨h.live, by
    by_contra hn
    exact absurd (h.negative (Bool.eq_false_of_not_eq_true hn)).1 (by decide)⟩

structure Walked (mustexist : Bool) (s : State Φ) (parent : Nat) (names : List Name) (r : State Φ × Except Int Nat) :
    Prop where
  edits : Edits s r.1
  grown : Grown s r.1
  found : ∀ d, r.2 = .ok d → r.1.Found mustexist d
  again : ∀ d, r.2 = .ok d → ∀ u, Grown r.1 u → Linked u → walkLoop mustexist u parent names = (u, .ok d)

theorem walkLoop_walked (mustexist : Bool) (names : List Name) (h : Sound s) (hp : s.Valid parent)
    (hn : ∀ n ∈ names, n.length < MAX_LFN ∧ n ≠ dot) :
      Walked mustexist s parent names (walkLoop mustexist s parent names) := by
  induction names generalizing s parent with
  | nil =>
    refine ⟨.refl, Grown.refl s, fun d hd => ?_, fun d hd u _ _ => ?_⟩
    · cases hd
      exact ⟨hp.live, fun hneg => absurd (hneg.symm.trans hp.positive) (by decide)⟩
    · cases hd
      rfl
  | cons name names ih =>
    have hn' := fun n hm => hn n (List.mem_cons_of_mem _ hm)
    rw [walkLoop]
    split
    · exact ⟨.refl, Grown.refl s, nofun, nofun⟩
    rename_i hdir
    split
    · rename_i hdots
      have hw := ih h ⟨h.linked.up_live hp.live, h.linked.above parent hp.live hp.positive⟩ hn'
      refine ⟨hw.edits, hw.grown, hw.found, fun d hd u hg hu => ?_⟩
      have hgu := hw.grown.trans hg
      rw [walkLoop, if_neg (by rwa [hgu.isDir hp.live]), if_pos hdots,
        show (u.dentry parent).parent = (s.dentry parent).parent from hgu.up parent hp.live]
      exact hw.again d hd u hg hu
    rename_i hdots
    split
    · rename_i hroot
      cases hmp : s.findMp name with
      | none => exact ⟨.refl, Grown.refl s, nofun, nofun⟩
      | some mp =>
        obtain ⟨hlive, -, -, hpos, -⟩ := h.linked.mounts mp (List.mem_of_find?_eq_some hmp)
        have hw := ih h ⟨hlive, hpos⟩ hn'
        refine ⟨hw.edits, hw.grown, hw.found, fun d hd u hg hu => ?_⟩
        have hgu := hw.grown.trans hg
        rw [walkLoop, if_neg (by rwa [hgu.isDir hp.live]), if_neg hdots, if_pos hroot, hgu.findMp, hmp]
        exact hw.again d hd u hg hu
    rename_i hroot
    have hpd : s.ValidDir parent := ⟨hp, .inl (by simpa using hdir), hroot⟩
    obtain ⟨he, hg₁, hchild⟩ := walkChild_edits h hpd (hn name List.mem_cons_self).1
      ⟨(hn name List.mem_cons_self).2, hdots⟩
    obtain ⟨s₁, o, hso⟩ : ∃ s₁ o, s.walkChild parent name = (s₁, o) := ⟨_, _, rfl⟩
    rw [hso] at he hg₁ hchild ⊢
    cases o with
    | error e => exact ⟨he, hg₁, nofun, nofun⟩
    | ok child =>
      have hc := hchild child rfl
      have h₁ := he.sound h
      -- a later walk finds the child in the cache
      have later : ∀ u, Grown s₁ u → Linked u → walkLoop mustexist u parent (name :: names) =
          if s₁.isPositive child then walkLoop mustexist u child names
          else if names = [] ∧ mustexist = false then (u, .ok child) else (u, .error (-ENOENT)) := fun u hg hu => by
        have hgu := hg₁.trans hg
        have hlook := hu.dcacheLookup_eq (hgu.live parent hp.live) (hg.child (hg₁.live parent hp.live) hc)
        rw [walkLoop, if_neg (by rwa [hgu.isDir hp.live]), if_neg hdots, if_neg hroot, State.walkChild, hlook]
        dsimp only
        rw [hg.isPositive hc.live]
      dsimp only
      split
      · rename_i hpos
        have hw := ih h₁ ⟨hc.live, hpos⟩ hn'
        refine ⟨he.trans hw.edits, hg₁.trans hw.grown, hw.found, fun d hd u hg hu => ?_⟩
        rw [later u (hw.grown.trans hg) hu, if_pos hpos]
        exact hw.again d hd u hg hu
      · rename_i hpos
        split
        · rename_i hlast
          refine ⟨he, hg₁, fun d hd => ?_, fun d hd u hg hu => ?_⟩
          · cases hd
            refine ⟨hc.live, fun _ => ⟨hlast.2, ?_⟩⟩
            rw [(h₁.linked.child parent (hg₁.live parent hp.live) child hc.mem).2.1]
            exact hg₁.validDir hpd
          · cases hd
            rw [later u hg hu, if_neg hpos, if_pos hlast]
        · exact ⟨he, hg₁, nofun, nofun⟩

/-- The components of a path fit into a dentry, and `vfs_clean_path` has left none that is `.`. -/
def Path.Clean (path : Path) : Prop := ∀ n ∈ path.names, n.length < MAX_LFN ∧ n ≠ dot

instance (path : Path) : Decidable path.Clean :=
  inferInstanceAs (Decidable (∀ n ∈ path.names, n.length < MAX_LFN ∧ n ≠ dot))

theorem vfsWalkPath_walked (h : Sound s) (hp : (s.proc p).alive = true) {path : Path} (hn : path.Clean)
    (mustexist : Bool) :
    Walked mustexist s (s.pathRoot p path) path.names (s.vfsWalkPath p path mustexist) := by
  refine walkLoop_walked mustexist path.names h ?_ hn
  rw [State.pathRoot]
  split
  · exact ⟨h.linked.root_live, h.linked.root_positive⟩
  · exact h.counted.valid_cwd hp

theorem Grown.pathRoot (h : Grown s t) (path : Path) : t.pathRoot p path = s.pathRoot p path := by
  rw [State.pathRoot, h.proc, State.pathRoot]

end Novino.Vfs
