import Novino.Theorems.Coherence

/-! Histories of calls on mounted file systems that keep their contract: the dentry cache is transparent. -/

namespace Novino.Vfs
open Chains Steps
open Ext2 (Name I_FILE I_DIR ENOENT)

variable {Φ : Type} {V : View Φ} {T : Namespace Node Name} {s : State Φ} {c : Call} {d src dst : Nat}

/-- What is asked of a call: the names that it puts into the cache fit, no root of a mount is removed or replaced, and
the cache has nothing below a dentry that is replaced. -/
def State.Fit (s : State Φ) : Call → Prop
  | .lookup _ path _ | .create _ path _ | .mkdir _ path _ | .openFile _ path _ | .chdir _ path => path.Clean
  | .remove p path | .rmdir p path => path.Clean ∧ ∀ t d, s.vfsWalkPath p path true = (t, .ok d) → (t.dentry d).mp ≠ d
  | .rename p old new => old.Clean ∧ new.Clean ∧
    ∀ t src dst, s.renameEnds p old new = (t, .ok (src, dst)) → t.renameCheck src dst = none →
      (t.dentry dst).mp ≠ dst ∧ (t.dentry dst).children = []
  | .readdir p id _ => ∀ f, s.fdFind p id = some f → s.ShortEntries (s.file f).dentry
  | .closeFile _ _ | .read _ _ _ | .write _ _ _ | .seek _ _ _ _ | .clone _ _ _ | .start _ | .exit _ => True
  | .mount _ _ _ _ | .umount _ _ => False

theorem Coherent.removable (h : Coherent V T s) (hl : Linked s)
    {op : Ops Φ → Option (Φ → Inode → Name → Inode → Φ × Int)} {dir : Bool} (hop : Dropper Φ op dir) (hd : s.Valid d)
    (hm : (s.dentry d).mp ≠ d) : s.Removable op dir d := by
  refine ⟨hm, fun hkind hpos drop hdrop hst => ?_⟩
  obtain ⟨c, hc, hcpos⟩ := hpos
  have hne : d ≠ root := fun heq => hm (heq ▸ hl.root_mp)
  have hdir : s.isDir d = true := by
    by_contra hn
    exact absurd ((h.plain d hd (Bool.eq_false_of_not_eq_true hn) c hc).symm.trans hcpos) (by decide)
  obtain ⟨-, hempty, -⟩ := (h.dropped hl hd hm (hkind ▸ hop) hdrop).drop hst
  have hentry := h.child d ⟨hd, hne, hdir⟩ c hc
  rw [map_node hcpos] at hentry
  exact absurd ((hempty _).symm.trans hentry) nofun

theorem Linked.below_mount (hl : Linked s) (hd : s.live d = true) : Below s.up (s.dentry d).mp d := by
  obtain ⟨n, hn⟩ := hl.climbs d hd
  induction n generalizing d with
  | zero =>
    obtain rfl : d = root := hn
    rw [hl.root_mp]
    exact Below.refl _ _
  | succ n ih =>
    by_cases hm : (s.dentry d).mp = d
    · rw [hm]
      exact Below.refl _ _
    · obtain ⟨hup, hmem⟩ := hl.listed d hd hm
      rw [(hl.child _ hup d hmem).2.2.1]
      exact below_iff.mpr (.inr (ih hup hn))

theorem Coherent.above (h : Coherent V T s) (hl : Linked s) (hd : s.Folder d) (hb : Below s.up src d) :
    src = root ∨ s.Folder src := by
  obtain ⟨n, hn⟩ := hb
  induction n generalizing d with
  | zero => exact .inr (hn ▸ hd)
  | succ n ih =>
    by_cases hm : (s.dentry d).mp = d
    · rcases hl.mounted d hd.live hm with heq | ⟨m, hmem, heq⟩
      · exact absurd heq hd.ne_root
      · left
        rw [Function.iterate_succ_apply, ← heq, (hl.mounts m hmem).2.2.1, Function.iterate_fixed hl.root_up] at hn
        exact hn.symm
    · exact ih (h.place hl hd.toValid hm).1 hn

theorem Coherent.renamable (h : Coherent V T s) (hl : Linked s) (hsrc : s.Valid src) (hdst : s.Found false dst)
    (hc : s.Checked src dst) (hm : (s.dentry dst).mp ≠ dst) (halone : (s.dentry dst).children = []) :
    s.Renamable src dst := by
  obtain ⟨hup, hmem⟩ := hl.listed dst hdst.live hm
  have hroot : src ≠ root := fun heq => by
    have hmp : (s.dentry dst).mp = root := by
      rw [← hc.mount, heq]
      exact hl.root_mp
    exact hm (hmp.trans (h.alone dst hdst.live hmp).symm)
  have hfolder : s.Folder (s.up dst) := by
    cases hp : s.isPositive dst with
    | false => exact h.folder (hdst.negative hp).2
    | true => exact (h.place hl ⟨hdst.live, hp⟩ hm).1
  refine ⟨fun hms => ?_, hm, halone, ?_⟩
  · -- the target is below the root of the mount
    have hbelow := hl.below_mount hup
    rw [← (hl.child _ hup dst hmem).2.2.1, ← hc.mount, hms] at hbelow
    exact climbs_above hl.root_up hroot (hc.climb (h.isRoot hl hsrc.live hroot hms).1) hbelow
  · by_cases hdir : s.isDir src = true
    · exact .inl hdir
    · refine .inr fun hb => ?_
      rcases h.above hl hfolder hb with heq | hf
      · exact hroot heq
      · exact hdir hf.isDir

theorem Coherent.plainCall (h : Coherent V T s) (hs : Sound s) (hr : s.running c = true) (hc : s.Fit c) :
    s.Plain c ∧ c.isInner = true := by
  have walked : ∀ {p path t d}, (s.proc p).alive = true → path.Clean → s.vfsWalkPath p path true = (t, .ok d) →
      ∃ T', Coherent V T' t ∧ Linked t ∧ t.Valid d := fun {p path t d} hp hclean heq => by
    have hw := vfsWalkPath_walked hs hp hclean true
    rw [heq] at hw
    obtain ⟨T', h'⟩ := hw.edits.coherent hs h
    exact ⟨T', h', (hw.edits.sound hs).linked, (hw.found d rfl).valid⟩
  cases c with
  | lookup | create | mkdir | openFile | chdir | readdir => exact ⟨hc, rfl⟩
  | remove p path =>
    refine ⟨⟨hc.1, fun t d heq => ?_⟩, rfl⟩
    obtain ⟨T', h', hl, hd⟩ := walked hr hc.1 heq
    exact h'.removable hl .remove hd (hc.2 t d heq)
  | rmdir p path =>
    refine ⟨⟨hc.1, fun t d heq => ?_⟩, rfl⟩
    obtain ⟨T', h', hl, hd⟩ := walked hr hc.1 heq
    exact h'.removable hl .rmdir hd (hc.2 t d heq)
  | rename p old new =>
    refine ⟨⟨hc.1, hc.2.1, fun t src dst heq hcheck => ?_⟩, rfl⟩
    obtain ⟨hedits, hfound⟩ := renameEnds_edits hs hr hc.1 hc.2.1
    rw [heq] at hedits hfound
    obtain ⟨T', h'⟩ := hedits.coherent hs h
    obtain ⟨hsrc, hdst⟩ := hfound src dst rfl
    obtain ⟨hm, halone⟩ := hc.2.2 t src dst heq hcheck
    exact h'.renamable (hedits.sound hs).linked hsrc hdst (renameCheck_none hcheck) hm halone
  | closeFile | read | write | seek | clone | start | exit => exact ⟨trivial, rfl⟩
  | mount | umount => exact hc.elim

def Settled (V : View Φ) (s : State Φ) : Prop := Sound s ∧ ∃ T, Coherent V T s

theorem step_settled (h : Settled V s) (hc : s.Fit c) : Settled V (s.step c) := by
  obtain ⟨hs, T, h⟩ := h
  unfold State.step
  split
  · rename_i hr
    obtain ⟨hplain, hin⟩ := h.plainCall hs hr hc
    have hedits := call_edits hs hr hplain hin
    exact ⟨hedits.sound hs, hedits.coherent hs h⟩
  · exact ⟨hs, T, h⟩

/-- A positive child is an entry with the same inode, a negative child is none, and a directory that is marked has
exactly its entries as positive children. -/
structure TransparentAt (T : Namespace Node Name) (s : State Φ) (d : Nat) : Prop where
  positive : ∀ c ∈ (s.dentry d).children, ∀ ip, (s.dentry c).inode = some ip →
    T.entry (s.node d) (s.dentry c).name = some ip.node
  negative : ∀ c ∈ (s.dentry d).children, (s.dentry c).inode = none → T.entry (s.node d) (s.dentry c).name = none
  cached : (s.dentry d).cached = true → ∀ n y, T.entry (s.node d) n = some y ↔
    ∃ c ∈ (s.dentry d).children, (s.dentry c).name = n ∧ ∃ ip, (s.dentry c).inode = some ip ∧ ip.node = y

def Transparent (V : View Φ) (s : State Φ) : Prop :=
  ∃ T, V s.store = some T ∧ ∀ d, s.Folder d → TransparentAt T s d

theorem Coherent.transparent (h : Coherent V T s) : Transparent V s := by
  refine ⟨T, h.view, fun d hd => ⟨fun c hc ip hip => ?_, fun c hc hip => ?_, fun hcached n y => ⟨fun hy => ?_, ?_⟩⟩⟩
  · rw [h.child d hd c hc, hip]
    rfl
  · rw [h.child d hd c hc, hip]
    rfl
  · obtain ⟨c, hc, rfl⟩ := h.cached d hd hcached n y hy
    refine ⟨c, hc, rfl, ?_⟩
    rw [h.child d hd c hc] at hy
    exact Option.map_eq_some_iff.mp hy
  · rintro ⟨c, hc, rfl, ip, hip, rfl⟩
    rw [h.child d hd c hc, hip]
    rfl

/-- File systems that keep their contract have been mounted, as different root directories of the namespace that the
store shows, and nothing but the roots of the mounts is in the cache. -/
structure JustMounted (V : View Φ) (T : Namespace Node Name) (s : State Φ) : Prop where
  obeys : ∀ o, Obeys V o (s.table o)
  base : (s.ops root).Bare
  view : V s.store = some T
  live : ∀ d, s.live d = true → d = root ∨ ∃ m ∈ s.mpl, m.dentry = d
  children : ∀ d, s.live d = true → (s.dentry d).children = []
  unmarked : ∀ d, s.live d = true → (s.dentry d).cached = false
  roots : ∀ m ∈ s.mpl, s.isDir m.dentry = true ∧ T.isDir (s.node m.dentry) ∧ T.isRoot (s.node m.dentry)
  distinct : ∀ m ∈ s.mpl, ∀ m' ∈ s.mpl, s.node m.dentry = s.node m'.dentry → m.dentry = m'.dentry
  opened : ∀ f < s.files, (s.file f).refs ≠ 0 → has (s.file f).flags O_DIR = true → s.isDir (s.file f).dentry = true

theorem JustMounted.coherent (h : JustMounted V T s) (hl : Linked s) : Coherent V T s := by
  have hmount : ∀ {d}, s.live d = true → d ≠ root → ∃ m ∈ s.mpl, m.dentry = d := fun hd hne =>
    (h.live _ hd).resolve_left hne
  have hmp : ∀ {d}, s.live d = true → (s.dentry d).mp = d := fun {d} hd => by
    rcases h.live d hd with rfl | ⟨m, hm, rfl⟩
    · exact hl.root_mp
    · exact (hl.mounts m hm).2.1
  have hnil : ∀ {d c} {P : Prop}, s.live d = true → c ∈ (s.dentry d).children → P := fun hd hc => by
    rw [h.children _ hd] at hc
    cases hc
  refine ⟨⟨h.obeys, h.base, fun m hm => (h.roots m hm).1, fun d hd => ?_, fun d hd hm => absurd (hmp hd) hm, h.opened,
    fun d hd hm => (hmp hd).symm.trans hm⟩, h.view, fun m hm => (h.roots m hm).2.2, fun d hd hne => ?_,
    fun d hd c hc => hnil hd.live hc, fun d hd _ c hc => hnil hd.live hc, fun d hd hc => ?_,
      fun d e hd he hne heq => ?_⟩
  · rw [hmp hd.live]
    exact ⟨rfl, rfl⟩
  · obtain ⟨m, hm, rfl⟩ := hmount hd.live hne
    exact ⟨fun _ => (h.roots m hm).2.1, fun _ => (h.roots m hm).1⟩
  · exact absurd (hc.symm.trans (h.unmarked d hd.live)) (by decide)
  · obtain ⟨m, hm, rfl⟩ := hmount hd.live hd.ne_root
    obtain ⟨m', hm', rfl⟩ := hmount he.live hne
    exact h.distinct m hm m' hm' heq

/-- In every history of fit calls the cache is transparent after every call. -/
theorem cache_transparent (V : View Φ) (T : Namespace Node Name) (s : State Φ) (hs : Sound s) (hf : JustMounted V T s)
    (calls : List Call) (h : Along State.step State.Fit s calls) :
    Along State.step (fun s c => Transparent V s ∧ Transparent V (s.step c)) s calls := by
  refine h.imp (I := Settled V) (fun _ _ ht hc => step_settled ht hc) (fun _ _ ht hc => ?_)
    ⟨hs, T, hf.coherent hs.linked⟩
  obtain ⟨-, T₂, h₂⟩ := step_settled ht hc
  obtain ⟨-, T₁, h₁⟩ := ht
  exact ⟨h₁.transparent, h₂.transparent⟩

/-! ### A file system that does not change -/

section Shelf
variable (name : Name)

def shelfTop : Node := ⟨1, 1, 2, 0⟩
def shelfDir : Node := ⟨1, 1, 3, 0⟩
def shelfFile : Node := ⟨1, 1, 4, 0⟩

def shelfName : Name := [0x66]

def shelf : Namespace Node Name where
  isDir x := x = shelfTop ∨ x = shelfDir
  isRoot x := x = shelfTop
  entry x n :=
    if x = shelfTop ∧ n = name then some shelfDir else if x = shelfDir ∧ n = shelfName then some shelfFile else none
  folder {x n y} h := by
    split at h
    · rename_i heq
      exact .inl heq.1
    split at h
    · rename_i heq
      exact .inr heq.1
    · cases h
  single {x x' n n' y} hy h h' := by
    have only : ∀ {z m}, (if z = shelfTop ∧ m = name then some shelfDir
        else if z = shelfDir ∧ m = shelfName then some shelfFile else none) = some y → z = shelfTop ∧ m = name := by
      intro z m hz
      split at hz
      · assumption
      split at hz
      · cases hz
        exact absurd hy (by decide)
      · cases hz
    obtain ⟨rfl, rfl⟩ := only h
    obtain ⟨rfl, rfl⟩ := only h'
    exact ⟨rfl, rfl⟩
  inner {x n y} h := by
    split at h
    · cases h
      decide
    split at h
    · cases h
      decide
    · cases h

def shelfInode (ino flags : Nat) : Inode := { Inode.zero with ino, flags }

def shelfEntries (ino : Nat) : List (Name × Inode) :=
  if ino = 2 then [(name, shelfInode 3 I_DIR)] else if ino = 3 then [(shelfName, shelfInode 4 I_FILE)] else []

def shelfFs : Ops Unit where
  lookup _ dir n := ((), match (shelfEntries name dir.ino).find? (·.1 == n) with
    | some e => .ok e.2
    | none => .error (-ENOENT))
  readdir _ dir k := ⟨(shelfEntries name dir.ino).drop k, fun _ => ((), 0)⟩
  openFile := none
  closeFile := none
  read := none
  write := none
  seek := none
  truncate := none
  create := none
  mkdir := none
  remove := none
  rmdir := none
  rename := none
  mount _ _ := ((), some (1, shelfInode 2 I_DIR))
  umount _ _ := ((), 0)

variable {name}

theorem mem_shelfEntries {ino : Nat} {e : Name × Inode} (he : e ∈ shelfEntries name ino) :
    e = (name, shelfInode 3 I_DIR) ∨ e = (shelfName, shelfInode 4 I_FILE) := by
  unfold shelfEntries at he
  split at he
  · exact .inl (List.mem_singleton.mp he)
  split at he
  · exact .inr (List.mem_singleton.mp he)
  · cases he

theorem shelfEntries_shown {dir : Inode} (hdir : (shelf name).isDir dir.node) {n : Name} :
    (∀ ip, (n, ip) ∈ shelfEntries name dir.ino → Shown (shelf name) dir n ip) ∧
    (n ∉ (shelfEntries name dir.ino).map (·.1) → (shelf name).entry dir.node n = none) := by
  rcases hdir with heq | heq
  · have hino : dir.ino = 2 := congrArg Node.ino heq
    have hops : dir.ops = 1 := congrArg Node.ops heq
    have hdata : dir.data = 1 := congrArg Node.data heq
    have hentry : (shelf name).entry dir.node n = if n = name then some shelfDir else none := by
      rw [heq]
      simp [shelf, show shelfTop ≠ shelfDir by decide]
    rw [shelfEntries, if_pos hino, hentry]
    refine ⟨fun ip hip => ?_, fun hn => if_neg (by simpa using hn)⟩
    obtain ⟨rfl, rfl⟩ : n = name ∧ ip = shelfInode 3 I_DIR := by simpa using hip
    have hnode : ((shelfInode 3 I_DIR).within dir).node = shelfDir := by
      simp [Inode.within, Inode.node, hops, hdata, shelfInode, shelfDir, Inode.zero]
    exact ⟨by rw [hentry, if_pos rfl, hnode], fun _ => hnode ▸ .inr rfl, fun _ => by decide⟩
  · have hino : dir.ino = 3 := congrArg Node.ino heq
    have hops : dir.ops = 1 := congrArg Node.ops heq
    have hdata : dir.data = 1 := congrArg Node.data heq
    have hentry : (shelf name).entry dir.node n = if n = shelfName then some shelfFile else none := by
      rw [heq]
      simp [shelf, show shelfDir ≠ shelfTop by decide]
    rw [shelfEntries, if_neg (by omega), if_pos hino, hentry]
    refine ⟨fun ip hip => ?_, fun hn => if_neg (by simpa using hn)⟩
    obtain ⟨rfl, rfl⟩ : n = shelfName ∧ ip = shelfInode 4 I_FILE := by simpa using hip
    have hnode : ((shelfInode 4 I_FILE).within dir).node = shelfFile := by
      simp [Inode.within, Inode.node, hops, hdata, shelfInode, shelfFile, Inode.zero]
    refine ⟨by rw [hentry, if_pos rfl, hnode], fun hd => absurd hd (by decide), fun hd => ?_⟩
    rw [hnode] at hd
    exact absurd hd (show ¬(shelfFile = shelfTop ∨ shelfFile = shelfDir) by decide)

theorem shelfFs_obeys (hname : Ordinary name) (o : Nat) : Obeys (fun _ => some (shelf name)) o (shelfFs name) := by
  refine ⟨fun {φ T d n} hin hn => ?_, fun {φ T d} hin => ?_, nofun, nofun, nofun, nofun, nofun, nofun, nofun, nofun,
    nofun,
    nofun, nofun⟩
  · obtain rfl : shelf name = T := Option.some.inj hin.view
    obtain ⟨hshown, hnone⟩ := shelfEntries_shown hin.dir (n := n)
    refine ⟨rfl, fun ip hip => ?_, fun hip => ?_⟩
    all_goals
      unfold shelfFs at hip
      dsimp only at hip
      split at hip
    · rename_i e he
      cases hip
      have hen : e.1 = n := by simpa using List.find?_some he
      exact hshown e.2 (hen ▸ List.mem_of_find?_eq_some he)
    · cases hip
    · cases hip
    · rename_i hfind
      refine hnone fun hmem => ?_
      obtain ⟨e, he, rfl⟩ := List.mem_map.mp hmem
      exact absurd (List.find?_eq_none.mp hfind e he) (by simp)
  · obtain rfl : shelf name = T := Option.some.inj hin.view
    refine ⟨fun k n => rfl, shelfEntries name d.ino, ?_, fun k => ?_,
      fun n ip hip => (shelfEntries_shown hin.dir).1 ip hip,
      fun n y hy => ?_⟩
    · unfold shelfEntries
      split
      · simp
      split <;> simp
    · refine List.filter_eq_self.mpr fun e he => decide_eq_true ?_
      rcases mem_shelfEntries (List.mem_of_mem_drop he) with rfl | rfl
      · exact hname
      · exact (by decide : Ordinary shelfName)
    · by_contra hn
      rw [(shelfEntries_shown hin.dir).2 hn] at hy
      cases hy

def shelfMounted (name : Name) : State Unit :=
  [Call.start none, .mount 0 none [0x73] mountName].foldl State.step
    (State.vfsInit (fun _ => shelfFs name) [([0x73], 1)] () (fun _ => true) 0)

theorem shelfMounted_sound : Sound (shelfMounted name) := by
  have hstart := step_sound (c := .start none)
    (vfsInit_sound (fun _ => shelfFs name) [([0x73], 1)] () (fun _ => true) 0)
    trivial
  exact step_sound (c := .mount 0 none [0x73] mountName) hstart nofun

theorem shelfMounted_just (hname : Ordinary name) :
    JustMounted (fun _ => some (shelf name)) (shelf name) (shelfMounted name) := by
  have hmpl : ∀ m ∈ (shelfMounted name).mpl, m.dentry = 1 := fun m hm => by
    obtain rfl : m = ⟨mountName, 1, 1⟩ := List.mem_singleton.mp hm
    rfl
  have hlive : ∀ d, (shelfMounted name).live d = true → d = root ∨ d = 1 := fun d hd => by
    rw [show (shelfMounted name).live = Function.update (fun d => d == root) 1 true from rfl,
      Function.update_apply] at hd
    split at hd
    · exact .inr ‹_›
    · exact .inl (beq_iff_eq.mp hd)
  refine ⟨fun o => shelfFs_obeys hname o, ⟨rfl, rfl, rfl, rfl, rfl, rfl⟩, rfl, fun d hd => ?_, fun d hd => ?_,
    fun d hd => ?_, fun m hm => ?_, fun m hm m' hm' _ => (hmpl m hm).trans (hmpl m' hm').symm, nofun⟩
  · rcases hlive d hd with rfl | rfl
    · exact .inl rfl
    · exact .inr ⟨⟨mountName, 1, 1⟩, List.mem_singleton.mpr rfl, rfl⟩
  · rcases hlive d hd with rfl | rfl <;> rfl
  · rcases hlive d hd with rfl | rfl <;> rfl
  · rw [hmpl m hm]
    exact ⟨show has I_DIR I_DIR = true by decide, .inl rfl, rfl⟩

/-- A name is found and another one is not, and the directory is read to its end and marked. -/
def shelfCalls : List Call :=
  [.lookup 0 ⟨true, [mountName, [0x61], shelfName]⟩ true, .lookup 0 ⟨true, [mountName, [0x62]]⟩ false,
    .openFile 0 ⟨true, [mountName]⟩ O_DIR, .readdir 0 0 64, .readdir 0 0 64]

theorem shelf_short (s : State Unit) (hops : ∀ d, (s.ops d).readdir = (shelfFs [0x61]).readdir) (p id size : Nat) :
    s.Fit (.readdir p id size) := by
  intro f _ k e he
  rw [hops] at he
  have he : e ∈ (shelfEntries [0x61] _).drop k := he
  rcases mem_shelfEntries (List.mem_of_mem_drop he) with rfl | rfl
  · decide
  · decide

theorem cache_transparent_shelf :
    let s := shelfCalls.foldl State.step (shelfMounted [0x61])
    (s.dentry 1).cached = true ∧ (s.dentry 1).children.map s.isPositive = [false, true] ∧
      Along State.step (fun s c => Transparent (fun _ => some (shelf [0x61])) s ∧
        Transparent (fun _ => some (shelf [0x61])) (s.step c)) (shelfMounted [0x61]) shelfCalls :=
  ⟨by decide +kernel, by decide +kernel, cache_transparent _ _ _ shelfMounted_sound (shelfMounted_just (by decide)) _
    ⟨(by decide : Path.Clean _), (by decide : Path.Clean _), (by decide : Path.Clean _),
      shelf_short _ (fun _ => rfl) _ _ _, shelf_short _ (fun _ => rfl) _ _ _, trivial⟩⟩

set_option maxRecDepth 4000

def shelfLong : Name := List.replicate 258 0x41

/-- The directory has a name of 258 bytes, which runs over the mark of its dentry: it has no children, while the
directory has an entry. -/
theorem long_name_marks_directory :
    let s := (shelfMounted shelfLong).step (.lookup 0 ⟨true, [mountName, shelfLong]⟩ true)
    Sound (shelfMounted shelfLong) ∧ JustMounted (fun _ => some (shelf shelfLong)) (shelf shelfLong)
      (shelfMounted shelfLong) ∧
      (s.dentry 2).cached = true ∧ (s.dentry 2).children = [] ∧ ¬Transparent (fun _ => some (shelf shelfLong)) s := by
  obtain ⟨s, hs⟩ : ∃ s, s = (shelfMounted shelfLong).step (.lookup 0 ⟨true, [mountName, shelfLong]⟩ true) := ⟨_, rfl⟩
  have hcached : (s.dentry 2).cached = true := by subst hs; decide +kernel
  have hchildren : (s.dentry 2).children = [] := by subst hs; decide +kernel
  have hlive : s.live 2 = true := by subst hs; decide +kernel
  have hpos : s.isPositive 2 = true := by subst hs; decide +kernel
  have hdir : s.isDir 2 = true := by subst hs; decide +kernel
  have hnode : s.node 2 = shelfDir := by subst hs; decide +kernel
  dsimp only
  rw [← hs]
  refine ⟨shelfMounted_sound, shelfMounted_just (by decide), hcached, hchildren, fun h => ?_⟩
  obtain ⟨T, hT, h⟩ := h
  obtain rfl : shelf shelfLong = T := Option.some.inj hT
  obtain ⟨c, hc, -⟩ := ((h 2 ⟨⟨hlive, hpos⟩, by decide,
    hdir⟩).cached hcached shelfName shelfFile).mp (by rw [hnode]; rfl)
  rw [hchildren] at hc
  cases hc

end Shelf

end Novino.Vfs
