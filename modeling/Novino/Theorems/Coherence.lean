import Novino.Theorems.Histories
import Novino.Vfs.Contract

/-! The dentry cache agrees with the namespace that the store shows, in every history of calls. -/

namespace Novino.Vfs
open Chains Steps
open Ext2 (Name I_FILE I_DIR)

variable {Φ : Type} {V : View Φ} {T : Namespace Node Name} {s s' : State Φ} {d e c dp : Nat} {φ : Φ}

/-! ### Coherent caches -/

def State.node (s : State Φ) (d : Nat) : Node := (s.inode d).node

structure State.Folder (s : State Φ) (d : Nat) : Prop extends s.Valid d where
  ne_root : d ≠ root
  isDir : s.isDir d = true

/-- The tree is that of the mounted file systems: they keep their contract, their roots are directories, and all
dentries below a mount are of its file system. -/
structure Based (V : View Φ) (s : State Φ) : Prop where
  obeys : ∀ o, Obeys V o (s.table o)
  base : (s.ops root).Bare
  dirs : ∀ m ∈ s.mpl, s.isDir m.dentry = true
  volume : ∀ d, s.Valid d → (s.inode d).ops = (s.inode (s.dentry d).mp).ops ∧
    (s.inode d).data = (s.inode (s.dentry d).mp).data
  ordinary : ∀ d, s.live d = true → (s.dentry d).mp ≠ d → Ordinary (s.dentry d).name
  opened : ∀ f < s.files, (s.file f).refs ≠ 0 → has (s.file f).flags O_DIR = true → s.isDir (s.file f).dentry = true
  alone : ∀ d, s.live d = true → (s.dentry d).mp = root → d = root

/-- The cache agrees with namespace `T`: children are entries or known to be none, a marked directory has all its
entries as children, and no two dentries stand for the same directory. -/
structure Coherent (V : View Φ) (T : Namespace Node Name) (s : State Φ) : Prop extends Based V s where
  view : V s.store = some T
  roots : ∀ m ∈ s.mpl, T.isRoot (s.node m.dentry)
  kind : ∀ d, s.Valid d → d ≠ root → (s.isDir d = true ↔ T.isDir (s.node d))
  child : ∀ d, s.Folder d → ∀ c ∈ (s.dentry d).children,
    T.entry (s.node d) (s.dentry c).name = (s.dentry c).inode.map Inode.node
  plain : ∀ d, s.Valid d → s.isDir d = false → ∀ c ∈ (s.dentry d).children, s.isPositive c = false
  cached : ∀ d, s.Folder d → (s.dentry d).cached = true → ∀ n y, T.entry (s.node d) n = some y →
    ∃ c ∈ (s.dentry d).children, (s.dentry c).name = n
  inj : ∀ d e, s.Folder d → s.Valid e → e ≠ root → s.node d = s.node e → d = e

theorem inode_eq_some (h : s.isPositive d = true) : (s.dentry d).inode = some (s.inode d) := by
  obtain ⟨ip, hip⟩ := Option.isSome_iff_exists.mp h
  rw [State.inode, hip]
  rfl

theorem node_eq_getD (s : State Φ) (d : Nat) :
    s.node d = ((s.dentry d).inode.map Inode.node).getD Inode.zero.node := by
  rw [State.node, State.inode]
  cases (s.dentry d).inode <;> rfl

theorem map_node (h : s.isPositive d = true) : (s.dentry d).inode.map Inode.node = some (s.node d) := by
  rw [inode_eq_some h]
  rfl

theorem ne_root_of_ops {α : Type} {f : Ops Φ → Option α} {g : α} (hroot : f (s.ops root) = none)
    (hg : f (s.ops d) = some g) : d ≠ root := fun heq => by
  rw [heq, hroot] at hg
  cases hg

section Facts
variable (h : Coherent V T s)
include h

theorem Coherent.folder (hd : s.ValidDir d) : s.Folder d := by
  refine ⟨hd.toValid, hd.ne_root, ?_⟩
  rcases hd.directory with hdir | ⟨f, hf, hrefs, hflag, rfl⟩
  · exact hdir
  · exact h.opened f hf hrefs hflag

theorem Coherent.callIn (hd : s.Folder d) : CallIn V (s.inode d).ops s.store T (s.inode d) :=
  ⟨h.view, rfl, (h.kind d hd.toValid hd.ne_root).mp hd.isDir⟩

theorem Coherent.place (hl : Linked s) (hd : s.Valid d) (hm : (s.dentry d).mp ≠ d) : s.Folder (s.up d) ∧
    d ∈ (s.dentry (s.up d)).children ∧ T.entry (s.node (s.up d)) (s.dentry d).name = some (s.node d) := by
  obtain ⟨hlive, hmem⟩ := hl.listed d hd.live hm
  have hup : s.Valid (s.up d) := ⟨hlive, hl.above d hd.live hd.positive⟩
  have hroot : s.up d ≠ root := fun heq => by
    have hmp : (s.dentry d).mp = root := by
      rw [(hl.child _ hlive d hmem).2.2.1, heq]
      exact hl.root_mp
    exact hm (hmp.trans (h.alone d hd.live hmp).symm)
  have hdir : s.isDir (s.up d) = true := by
    by_contra hn
    exact absurd ((h.plain _ hup (Bool.eq_false_of_not_eq_true hn) d hmem).symm.trans hd.positive) (by decide)
  refine ⟨⟨hup, hroot, hdir⟩, hmem, ?_⟩
  rw [h.child _ ⟨hup, hroot, hdir⟩ d hmem, map_node hd.positive]

theorem Coherent.isRoot (hl : Linked s) (hd : s.live d = true) (hne : d ≠ root) (hm : (s.dentry d).mp = d) :
    s.isDir d = true ∧ T.isRoot (s.node d) := by
  rcases hl.mounted d hd hm with rfl | ⟨m, hmem, rfl⟩
  · exact absurd rfl hne
  · exact ⟨h.dirs m hmem, h.roots m hmem⟩

theorem Coherent.callOn (hl : Linked s) (hd : s.Valid d) (hne : d ≠ root) :
    CallOn V (s.inode d).ops s.store T (s.inode d) := by
  refine ⟨h.view, rfl, ?_, h.kind d hd hne⟩
  by_cases hm : (s.dentry d).mp = d
  · exact .inl ((h.kind d hd hne).mp (h.isRoot hl hd.live hne hm).1)
  · exact .inr ⟨_, _, (h.place hl hd hm).2.2⟩

theorem Coherent.entry_inj (hl : Linked s) (hd : s.Folder d) (he : s.Folder e) (hnode : s.node d = s.node e)
    {a b : Nat} (ha : a ∈ (s.dentry d).children) (hb : b ∈ (s.dentry e).children)
    (hname : (s.dentry a).name = (s.dentry b).name) : a = b := by
  obtain rfl := h.inj d e hd he.toValid he.ne_root hnode
  exact hl.names d hd.live a ha b hb hname

end Facts

section Inodes
variable (hi : (s'.dentry d).inode = (s.dentry d).inode)
include hi

theorem isPositive_congr : s'.isPositive d = s.isPositive d := congrArg Option.isSome hi

theorem inode_congr : s'.inode d = s.inode d := by rw [State.inode, hi, State.inode]

theorem node_congr : s'.node d = s.node d := by rw [State.node, inode_congr hi, State.node]

theorem isDir_congr : s'.isDir d = s.isDir d := by rw [State.isDir, inode_congr hi, State.isDir]

theorem valid_congr (hlive : s'.live d = s.live d) : s'.Valid d ↔ s.Valid d :=
  ⟨fun h => ⟨hlive ▸ h.live, isPositive_congr hi ▸ h.positive⟩,
    fun h => ⟨hlive.symm ▸ h.live, (isPositive_congr hi).symm ▸ h.positive⟩⟩

theorem folder_congr (hlive : s'.live d = s.live d) : s'.Folder d ↔ s.Folder d :=
  ⟨fun h => ⟨(valid_congr hi hlive).mp h.toValid, h.ne_root, isDir_congr hi ▸ h.isDir⟩,
    fun h => ⟨(valid_congr hi hlive).mpr h.toValid, h.ne_root, (isDir_congr hi).symm ▸ h.isDir⟩⟩

end Inodes

/-- Edits that keep the roots of the mounts and put every dentry on the file system of one that was there. -/
structure Rehoused (s s' : State Φ) : Prop where
  table : s'.table = s.table
  mpl : s'.mpl = s.mpl
  files : s'.files = s.files
  file : s'.file = s.file
  mounts : ∀ d, s.live d = true → (s.dentry d).mp = d → (s'.dentry d).inode = (s.dentry d).inode
  source : ∀ d, s'.live d = true → ∃ q, s.live q = true ∧ (s'.dentry d).mp = (s.dentry q).mp ∧ (q = root → d = root) ∧
    (s'.isPositive d = true → s.isPositive q = true ∧ (s'.inode d).ops = (s.inode q).ops ∧
      (s'.inode d).data = (s.inode q).data)
  names : (∀ d, s.live d = true → (s.dentry d).mp ≠ d → Ordinary (s.dentry d).name) →
    ∀ d, s'.live d = true → (s'.dentry d).mp ≠ d → Ordinary (s'.dentry d).name
  kept : ∀ d, s.refs d ≠ 0 → s.isDir d = true → s'.isDir d = true

theorem Based.rehoused (h : Based V s) (hl : Linked s) (hr : Rehoused s s') : Based V s' where
  obeys o := hr.table ▸ h.obeys o
  base := by
    rw [State.ops, hr.table, inode_congr (hr.mounts root hl.root_live hl.root_mp)]
    exact h.base
  dirs m hm := by
    rw [hr.mpl] at hm
    rw [isDir_congr (hr.mounts _ (hl.mounts m hm).1 (hl.mounts m hm).2.1)]
    exact h.dirs m hm
  volume d hd := by
    obtain ⟨q, hq, hmp, -, hvol⟩ := hr.source d hd.live
    obtain ⟨hpos, hops, hdata⟩ := hvol hd.positive
    rw [hmp, hops, hdata, inode_congr (hr.mounts _ (hl.mount q hq).1 (hl.mount q hq).2)]
    exact h.volume q ⟨hq, hpos⟩
  ordinary := hr.names h.ordinary
  opened f hf hrefs hflag := by
    rw [hr.files] at hf
    rw [hr.file] at hrefs hflag ⊢
    exact hr.kept _ (State.refs_ne hf hrefs) (h.opened f hf hrefs hflag)
  alone d hd hm := by
    obtain ⟨q, hq, hmp, hroot, -⟩ := hr.source d hd
    exact hroot (h.alone q hq (hmp ▸ hm))

/-! ### Calls that change no name -/

section Calls
variable (h : Coherent V T s) (hl : Linked s) {r : Φ × Int × Inode} {src : Nat}
include h hl

theorem Coherent.made {flags : Nat} (hc : MakeCall s dp flags r) :
    s.Folder (s.up dp) ∧ ∃ dir, MakeResult V T (s.inode (s.up dp)) (s.dentry dp).name dir r := by
  have hfolder : s.Folder (s.up dp) := h.folder hc.folder
  have hnone : T.entry (s.node (s.up dp)) (s.dentry dp).name = none := by
    rw [h.child _ hfolder dp (hl.listed dp hc.live hc.inner).2]
    have hneg := hc.negative
    simpa [State.isPositive, Dentry.isPositive] using hneg
  obtain ⟨op, make, mode, hop, hmake, rfl⟩ := hc.call
  have made : ∀ dir, Makes V (s.inode (s.up dp)).ops dir make → (s.madeInode (s.up dp) flags mode).isDir = dir →
      MakeResult V T (s.inode (s.up dp)) (s.dentry dp).name dir _ := fun dir hmakes hkind =>
    hmakes _ T _ _ (s.madeInode (s.up dp) flags mode) (h.callIn hfolder) (h.ordinary dp hc.live hc.inner) hnone rfl rfl
      hkind
  refine ⟨hfolder, ?_⟩
  cases hop with
  | create => exact ⟨false, made false ((h.obeys _).create hmake) (show has I_FILE I_DIR = false by decide)⟩
  | mkdir => exact ⟨true, made true ((h.obeys _).mkdir hmake) (show has I_DIR I_DIR = true by decide)⟩

theorem Coherent.volume_up (hd : s.Valid d) (hm : (s.dentry d).mp ≠ d) :
    (s.inode d).ops = (s.inode (s.up d)).ops ∧ (s.inode d).data = (s.inode (s.up d)).data := by
  obtain ⟨hup, hmem, -⟩ := h.place hl hd hm
  rw [(h.volume d hd).1, (h.volume d hd).2, (h.volume _ hup.toValid).1, (h.volume _ hup.toValid).2,
    (hl.child _ hup.live d hmem).2.2.1]
  exact ⟨rfl, rfl⟩

theorem Coherent.dropped (hv : s.Valid dp) (hm : (s.dentry dp).mp ≠ dp)
    {op : Ops Φ → Option (Φ → Inode → Name → Inode → Φ × Int)} (hop : Dropper Φ op (s.isDir dp))
    {drop : Φ → Inode → Name → Inode → Φ × Int} (hdrop : op (s.ops dp) = some drop) :
    DropResult V T (s.inode (s.up dp)) (s.dentry dp).name (s.inode dp)
      (drop s.store (s.inode (s.up dp)) (s.dentry dp).name (s.inode dp)) := by
  have hne : dp ≠ root := fun heq => hm (heq ▸ hl.root_mp)
  obtain ⟨hup, -, hentry⟩ := h.place hl hv hm
  have hops : s.ops dp = s.table (s.inode (s.up dp)).ops := by rw [State.ops, (h.volume_up hl hv hm).1]
  rw [hops] at hdrop
  have dropped : ∀ dir, Drops V (s.inode (s.up dp)).ops dir drop → s.isDir dp = dir → DropResult V T _ _ _ _ :=
    fun dir hdrops hkind => hdrops _ T _ _ (s.inode dp) (h.callIn hup) hentry hkind (h.kind dp hv hne)
  cases hkind : s.isDir dp with
  | false =>
    rw [hkind] at hop
    cases hop
    exact dropped false ((h.obeys _).remove hdrop) hkind
  | true =>
    rw [hkind] at hop
    cases hop
    exact dropped true ((h.obeys _).rmdir hdrop) hkind

theorem Coherent.dropCall {r : Φ × Int} (hc : DropCall s dp r) :
    DropResult V T (s.inode (s.up dp)) (s.dentry dp).name (s.inode dp) r := by
  obtain ⟨op, drop, hop, hdrop, rfl⟩ := hc.call
  exact h.dropped hl ⟨hc.live, hc.positive⟩ hc.inner hop hdrop

theorem Coherent.below (hsrc : s.Valid src) (hne : src ≠ root) (hd : s.Folder d) {y : Node}
    (hreach : T.Reach (s.node src) y) (hy : y = s.node d) : Below s.up src d := by
  induction hreach generalizing d with
  | refl =>
    rw [h.inj d src hd hsrc hne hy.symm]
    exact Below.refl _ _
  | tail _ hstep ih =>
    obtain ⟨n, hn⟩ := hstep
    subst hy
    have hm : (s.dentry d).mp ≠ d := fun hm => T.inner hn (h.isRoot hl hd.live hd.ne_root hm).2
    obtain ⟨hup, -, hentry⟩ := h.place hl hd.toValid hm
    have heq := (T.single ((h.kind d hd.toValid hd.ne_root).mp hd.isDir) hn hentry).1
    exact below_iff.mpr (.inr (ih hup heq))

theorem Coherent.moved {dst : Nat} (hc : RenameCall s src dst r) :
    s.Folder (s.up dst) ∧
    MoveResult V T (s.inode (s.up src)) (s.dentry src).name (s.inode src) (s.inode (s.up dst))
      (s.dentry dst).name r := by
  have hsrc : s.Valid src := ⟨hc.moved.live, hc.positive⟩
  have hne : src ≠ root := fun heq => hc.moved.inner (heq ▸ hl.root_mp)
  obtain ⟨hup, hsmem, hentry⟩ := h.place hl hsrc hc.moved.inner
  have hdmem := (hl.listed dst hc.replaced.live hc.replaced.inner).2
  have hup' : s.Folder (s.up dst) := by
    cases hp : s.isPositive dst with
    | false => exact h.folder (hc.folder hp)
    | true => exact (h.place hl ⟨hc.replaced.live, hp⟩ hc.replaced.inner).1
  have hvol : (s.inode (s.up dst)).ops = (s.inode (s.up src)).ops ∧
      (s.inode (s.up dst)).data = (s.inode (s.up src)).data := by
    rw [(h.volume _ hup.toValid).1, (h.volume _ hup.toValid).2, (h.volume _ hup'.toValid).1,
      (h.volume _ hup'.toValid).2, ← (hl.child _ hup.live src hsmem).2.2.1, ← (hl.child _ hup'.live dst hdmem).2.2.1,
      hc.mount]
    exact ⟨rfl, rfl⟩
  obtain ⟨rename, hop, rfl⟩ := hc.call
  rw [State.ops, (h.volume_up hl hsrc hc.moved.inner).1] at hop
  have hin' := h.callIn hup'
  rw [hvol.1] at hin'
  refine ⟨hup', (h.obeys _).rename hop _ T _ _ _ _ _ _ (h.callIn hup) hin' hvol.2 hentry (h.kind src hsrc hne)
    (h.child _ hup' dst hdmem) (fun j hj => ?_) (h.ordinary dst hc.replaced.live hc.replaced.inner) (fun heq => ?_)
    fun hreach => hc.above (h.below hl hsrc hne hup' hreach rfl)⟩
  · have hp : s.isPositive dst = true := by rw [State.isPositive, Dentry.isPositive, hj]; rfl
    rw [← hc.flags hp, State.inode, hj]
    rfl
  · exact hc.ne (h.entry_inj hl hup hup' (congrArg Prod.fst heq) hsmem hdmem (congrArg Prod.snd heq))

theorem Coherent.quiet (hq : Quiet s φ) : V φ = some T := by
  cases hq with
  | lookup hd hdot => exact ((h.obeys _).lookup (h.callIn (h.folder hd)) hdot).1
  | readdir hd k n => exact ((h.obeys _).readdir (h.callIn (h.folder hd))).1 k n
  | openFile hd hg => exact (h.obeys _).openFile hg (h.callOn hl hd (ne_root_of_ops h.base.openFile hg))
  | closeFile hd hg => exact (h.obeys _).closeFile hg (h.callOn hl hd (ne_root_of_ops h.base.closeFile hg))
  | read hd hg seek size => exact (h.obeys _).read seek size hg (h.callOn hl hd (ne_root_of_ops h.base.read hg))
  | seek hd hg seek offset origin =>
    exact (h.obeys _).seek seek offset origin hg (h.callOn hl hd (ne_root_of_ops h.base.seek hg))
  | make hc hst =>
    obtain ⟨-, dir, hmade⟩ := h.made hl hc
    exact hmade.failed hst
  | drop hc hst => exact (h.dropCall hl hc).failed hst

theorem Coherent.touched {ip : Inode} (hd : s.Valid d) (ht : Touched s d φ ip) :
    V φ = some T ∧ (s.inode d).Alike ip := by
  cases ht with
  | write hg seek buf => exact (h.obeys _).write seek buf hg (h.callOn hl hd (ne_root_of_ops h.base.write hg))
  | truncate hg => exact (h.obeys _).truncate hg (h.callOn hl hd (ne_root_of_ops h.base.truncate hg))
  | rename hc hst =>
    have hmoved := (h.moved hl hc).2
    exact ⟨hmoved.failed hst, hmoved.alike⟩

end Calls

/-! ### Edits that leave the names -/

/-- The dentries keep their objects, names and places, and the files their dentries. -/
structure SameNames (s s' : State Φ) : Prop where
  table : s'.table = s.table
  live : s'.live = s.live
  mpl : s'.mpl = s.mpl
  name : ∀ d, (s'.dentry d).name = (s.dentry d).name
  mp : ∀ d, (s'.dentry d).mp = (s.dentry d).mp
  children : ∀ d, (s'.dentry d).children = (s.dentry d).children
  node : ∀ d, (s'.dentry d).inode.map Inode.node = (s.dentry d).inode.map Inode.node
  isDir : ∀ d, s'.isDir d = s.isDir d

section Same
variable (hs : SameNames s s')
include hs

theorem SameNames.isPositive (d : Nat) : s'.isPositive d = s.isPositive d := by
  have hnode := congrArg Option.isSome (hs.node d)
  rwa [Option.isSome_map, Option.isSome_map] at hnode

theorem SameNames.node_eq (d : Nat) : s'.node d = s.node d := by
  rw [node_eq_getD, node_eq_getD, hs.node]

theorem SameNames.ops_eq (d : Nat) : (s'.inode d).ops = (s.inode d).ops := congrArg Node.ops (hs.node_eq d)

theorem SameNames.data_eq (d : Nat) : (s'.inode d).data = (s.inode d).data := congrArg Node.data (hs.node_eq d)

theorem SameNames.valid : s'.Valid d ↔ s.Valid d :=
  ⟨fun h => ⟨hs.live ▸ h.live, (hs.isPositive d) ▸ h.positive⟩,
    fun h => ⟨hs.live.symm ▸ h.live, (hs.isPositive d).symm ▸ h.positive⟩⟩

theorem SameNames.folder : s'.Folder d ↔ s.Folder d :=
  ⟨fun h => ⟨hs.valid.mp h.toValid, h.ne_root, hs.isDir d ▸ h.isDir⟩,
    fun h => ⟨hs.valid.mpr h.toValid, h.ne_root, (hs.isDir d).symm ▸ h.isDir⟩⟩

end Same

section
variable (h : Coherent V T s)
include h

theorem Coherent.congr (hs : SameNames s s') (hview : V s'.store = some T)
    (hcached : ∀ d, s.Folder d → (s'.dentry d).cached = true → (s.dentry d).cached = true ∨
      ∀ n y, T.entry (s.node d) n = some y → ∃ c ∈ (s.dentry d).children, (s.dentry c).name = n)
    (hopened : ∀ f < s'.files, (s'.file f).refs ≠ 0 → has (s'.file f).flags O_DIR = true →
      s.isDir (s'.file f).dentry = true) : Coherent V T s' where
  view := hview
  obeys o := hs.table ▸ h.obeys o
  base := by
    rw [State.ops, hs.table, hs.ops_eq]
    exact h.base
  kind d hd hne := by
    rw [hs.isDir, hs.node_eq]
    exact h.kind d (hs.valid.mp hd) hne
  child d hd c hc := by
    rw [hs.children] at hc
    rw [hs.node_eq, hs.name, hs.node]
    exact h.child d (hs.folder.mp hd) c hc
  plain d hd hdir c hc := by
    rw [hs.children] at hc
    rw [hs.isPositive]
    exact h.plain d (hs.valid.mp hd) (hs.isDir d ▸ hdir) c hc
  cached d hd hc n y hn := by
    rw [hs.node_eq] at hn
    rw [hs.children]
    simp only [hs.name]
    rcases hcached d (hs.folder.mp hd) hc with hc | hall
    · exact h.cached d (hs.folder.mp hd) hc n y hn
    · exact hall n y hn
  inj d e hd he hne heq := by
    rw [hs.node_eq, hs.node_eq] at heq
    exact h.inj d e (hs.folder.mp hd) (hs.valid.mp he) hne heq
  dirs m hm := by
    rw [hs.isDir]
    exact h.dirs m (hs.mpl ▸ hm)
  roots m hm := by
    rw [hs.node_eq]
    exact h.roots m (hs.mpl ▸ hm)
  volume d hd := by
    rw [hs.mp, hs.ops_eq, hs.ops_eq, hs.data_eq, hs.data_eq]
    exact h.volume d (hs.valid.mp hd)
  ordinary d hd hm := by
    rw [hs.mp] at hm
    rw [hs.name]
    exact h.ordinary d (hs.live ▸ hd) hm
  opened f hf hrefs hflag := by
    rw [hs.isDir]
    exact hopened f hf hrefs hflag
  alone d hd hm := h.alone d (hs.live ▸ hd) (hs.mp d ▸ hm)

theorem Coherent.stored (hφ : V φ = some T) : Coherent V T { s with store := φ } :=
  h.congr ⟨rfl, rfl, rfl, fun _ => rfl, fun _ => rfl, fun _ => rfl, fun _ => rfl, fun _ => rfl⟩ hφ
    (fun _ _ hc => .inl hc) h.opened

theorem Coherent.alike {ip : Inode} (hd : s.Valid d) (hφ : V φ = some T) (hip : (s.inode d).Alike ip) :
    Coherent V T ({ s with store := φ }.modify d fun x => { x with inode := some ip }) := by
  have hdentry : ∀ e, (({ s with store := φ } : State Φ).modify d fun x => { x with inode := some ip }).dentry e =
      if e = d then { s.dentry e with inode := some ip } else s.dentry e := fun e => State.modify_dentry _ d e _
  refine h.congr ⟨rfl, rfl, rfl, modify_same _ d _ Dentry.name fun _ => rfl, modify_same _ d _ Dentry.mp fun _ => rfl,
    modify_same _ d _ Dentry.children fun _ => rfl, fun e => ?_, fun e => ?_⟩ hφ (fun e _ hc => .inl ?_) h.opened
  · rw [hdentry]
    split
    · rename_i heq
      subst heq
      rw [map_node hd.positive]
      exact congrArg some hip.1
    · rfl
  · rw [State.isDir, State.inode, hdentry]
    split
    · rename_i heq
      subst heq
      exact hip.2
    · rfl
  · rw [hdentry] at hc
    split at hc <;> exact hc

theorem Coherent.mark (hl : Linked s) (hd : s.Folder d)
    (hend : ∀ e ∈ ((s.ops d).readdir s.store (s.inode d) (s.dentry d).positive).entries, e.1 = dot ∨ e.1 = dotdot) :
    Coherent V T (s.modify d fun x => { x with cached := true }) := by
  obtain ⟨E, hE⟩ := ((h.obeys _).readdir (h.callIn hd)).2
  -- the names of the positive children are names of entries, and there are as many
  have hlen : E.length ≤ ((s.dentry d).children.filter s.isPositive).length := by
    have hpos := hl.tally d hd.live true
    rw [Dentry.tally, if_pos rfl] at hpos
    have hnil := hE.drop (s.dentry d).positive
    rw [List.filter_eq_nil_iff.mpr fun e he => ?_] at hnil
    · have := List.drop_eq_nil_iff.mp hnil.symm
      rw [← List.countP_eq_length_filter]
      simpa [hpos] using this
    · rcases hend e he with heq | heq <;> simp [Ordinary, heq]
  have hsub : ((s.dentry d).children.filter s.isPositive).map (fun c => (s.dentry c).name) ⊆ E.map (·.1) := by
    intro n hn
    obtain ⟨c, hc, rfl⟩ := List.mem_map.mp hn
    obtain ⟨hmem, hpos⟩ := List.mem_filter.mp hc
    refine hE.all _ (s.node c) ?_
    rw [← map_node hpos]
    exact h.child d hd c hmem
  have hnodup : (((s.dentry d).children.filter s.isPositive).map fun c => (s.dentry c).name).Nodup :=
    List.Nodup.map_on (fun a ha b hb => hl.names d hd.live a (List.mem_of_mem_filter ha) b (List.mem_of_mem_filter hb))
      ((hl.nodup d hd.live).filter _)
  have hperm := (List.subperm_of_subset hnodup hsub).perm_of_length_le (by simpa using hlen)
  refine h.congr ⟨rfl, rfl, rfl, modify_same s d _ Dentry.name fun _ => rfl, modify_same s d _ Dentry.mp fun _ => rfl,
    modify_same s d _ Dentry.children fun _ => rfl, modify_same s d _ (fun x => x.inode.map Inode.node) fun _ => rfl,
    modify_same s d _ (fun x => has (x.inode.getD Inode.zero).flags I_DIR) fun _ => rfl⟩ h.view (fun e he hc => ?_)
    h.opened
  rw [State.modify_dentry] at hc
  split at hc
  · rename_i heq
    subst heq
    refine .inr fun n y hn => ?_
    obtain ⟨c, hc, hname⟩ := List.mem_map.mp (hperm.mem_iff.mpr (hE.all n y hn))
    exact ⟨c, List.mem_of_mem_filter hc, hname⟩
  · exact .inl hc

end

theorem FileEdit.opened_dir (hf : FileEdit s s') (hh : Held s) {f : Nat} (hlt : f < s'.files)
    (hrefs : (s'.file f).refs ≠ 0) (hflag : has (s'.file f).flags O_DIR = true) : s.isDir (s'.file f).dentry = true ∨
    f < s.files ∧ (s.file f).refs ≠ 0 ∧ has (s.file f).flags O_DIR = true ∧ (s.file f).dentry = (s'.file f).dentry := by
  -- a file that was open keeps its flags and its dentry
  have kept : ∀ {g : Nat} {x : File}, f < s.files → s'.file = Function.update s.file g x → x.flags = (s.file g).flags →
      x.dentry = (s.file g).dentry → (s.file g).refs ≠ 0 ∨ x.refs = (s.file g).refs → f < s.files ∧
      (s.file f).refs ≠ 0 ∧ has (s.file f).flags O_DIR = true ∧ (s.file f).dentry = (s'.file f).dentry := by
    intro g x hlt hfile hflags hdentry hopen
    rw [hfile] at hrefs hflag ⊢
    by_cases hfg : f = g
    · subst hfg
      rw [Function.update_self] at hrefs hflag ⊢
      refine ⟨hlt, ?_, hflags ▸ hflag, hdentry.symm⟩
      rcases hopen with hopen | hopen
      · exact hopen
      · exact hopen ▸ hrefs
    · rw [Function.update_of_ne hfg] at hrefs hflag ⊢
      exact ⟨hlt, hrefs, hflag, rfl⟩
  -- a new file is the last one
  have pushed : ∀ {x : File}, s'.files = s.files + 1 → s'.file = Function.update s.file s.files x →
      (x.refs ≠ 0 → has x.flags O_DIR = true → s.isDir x.dentry = true) → s.isDir (s'.file f).dentry = true ∨
      f < s.files ∧ (s.file f).refs ≠ 0 ∧ has (s.file f).flags O_DIR = true ∧
        (s.file f).dentry = (s'.file f).dentry := by
    intro x hfiles hfile hx
    rw [hfile] at hrefs hflag ⊢
    by_cases hff : f = s.files
    · rw [hff, Function.update_self] at hrefs hflag ⊢
      exact .inl (hx hrefs hflag)
    · rw [Function.update_of_ne hff] at hrefs hflag ⊢
      exact .inr ⟨by omega, hrefs, hflag, rfl⟩
  cases hf with
  | move g n => exact .inr (kept hlt rfl rfl rfl (.inr rfl))
  | @opened p dp flags hp hd hdir seek n => exact pushed rfl rfl fun _ hx => hdir hx
  | abandoned p n x => exact pushed rfl rfl fun hx => absurd rfl hx
  | @dropped p id g hfind hone => exact .inr (kept hlt rfl rfl rfl (.inl (hh.file_open (fdFind_mem hfind)).2))
  | @closed p id g hfind hone => exact .inr (kept hlt rfl rfl rfl (.inl (hh.file_open (fdFind_mem hfind)).2))
  | @cloned p id g q hfind hq n => exact .inr (kept hlt rfl rfl rfl (.inl (hh.file_open (fdFind_mem hfind)).2))
  | chdir => exact .inr ⟨hlt, hrefs, hflag, rfl⟩
  | started => exact .inr ⟨hlt, hrefs, hflag, rfl⟩
  | ended => exact .inr ⟨hlt, hrefs, hflag, rfl⟩

theorem Coherent.files (h : Coherent V T s) (hh : Held s) (hf : FileEdit s s') : Coherent V T s' := by
  refine h.congr ⟨by cases hf <;> rfl, by cases hf <;> rfl, by cases hf <;> rfl,
    hf.dentry_same Dentry.name fun _ _ => rfl,
    hf.dentry_same Dentry.mp fun _ _ => rfl, hf.dentry_same Dentry.children fun _ _ => rfl,
    hf.dentry_same (fun x => x.inode.map Inode.node) fun _ _ => rfl,
    hf.dentry_same (fun x => has (x.inode.getD Inode.zero).flags I_DIR) fun _ _ => rfl⟩ ?_ (fun d _ hc => .inl ?_)
    fun f hlt hrefs hflag => ?_
  · rw [show s'.store = s.store by cases hf <;> rfl]
    exact h.view
  · exact (hf.dentry_same Dentry.cached (fun _ _ => rfl) d).symm.trans hc
  · rcases hf.opened_dir hh hlt hrefs hflag with hdir | ⟨h₁, h₂, h₃, h₄⟩
    · exact hdir
    · exact h₄ ▸ h.opened f h₁ h₂ h₃

theorem Coherent.append (h : Coherent V T s) (hs : Sound s) {parent : Nat} {name : Name} {ip : Option Inode}
    (ha : Appended s parent name ip s') (hp : s.Folder parent) (hn : name.length < MAX_LFN) (hdot : Ordinary name)
    (hnew : ∀ c ∈ (s.dentry parent).children, (s.dentry c).name ≠ name)
    (hentry : T.entry (s.node parent) name = (s'.dentry s.fresh).inode.map Inode.node)
    (hkind : s'.isPositive s.fresh = true → (s'.isDir s.fresh = true ↔ T.isDir (s'.node s.fresh))) :
    Coherent V T s' := by
  have hl := hs.linked
  have hold : ∀ {d}, s.live d = true → d ≠ s.fresh := fun hd => Nat.ne_of_lt (hl.bound _ hd)
  have hinode : ∀ {d}, d ≠ s.fresh → (s'.dentry d).inode = (s.dentry d).inode := fun {d} hd => by
    by_cases hdp : d = parent
    · rw [hdp, ha.folder]
      simp
    · rw [ha.other d hd hdp]
  have hlive : ∀ {d}, d ≠ s.fresh → s'.live d = s.live d := fun hd => by rw [ha.live, Function.update_of_ne hd]
  have hvalid : ∀ {d}, d ≠ s.fresh → (s'.Valid d ↔ s.Valid d) := fun hd => valid_congr (hinode hd) (hlive hd)
  have hfolder : ∀ {d}, d ≠ s.fresh → (s'.Folder d ↔ s.Folder d) := fun hd => folder_congr (hinode hd) (hlive hd)
  have hitem : s'.dentry s.fresh =
      { Dentry.zero with name, mp := (s.dentry parent).mp, parent, inode := (s'.dentry s.fresh).inode } := by
    rw [ha.item, State.newDentry, setName_short _ hn]
  have hchildren : ∀ {d}, d ≠ s.fresh → (s'.dentry d).children =
      if d = parent then s.fresh :: (s.dentry d).children else (s.dentry d).children := fun {d} hd => by
    split
    · rename_i heq
      rw [heq, ha.folder]
    · rename_i hne
      rw [ha.other d hd hne]
  have hkid : ∀ {d c}, s.live d = true → c ∈ (s.dentry d).children → c ≠ s.fresh := fun hd hc =>
    hold (hl.child _ hd _ hc).1
  -- a directory that stands for the object of the new dentry would be a child of that name
  have clash : ∀ {e}, s.Folder e → s'.isPositive s.fresh = true → s.node e ≠ s'.node s.fresh :=
    fun {e} he hpos heq => by
    rw [map_node hpos, ← heq] at hentry
    have hm : (s.dentry e).mp ≠ e := fun hm => T.inner hentry (h.isRoot hl he.live he.ne_root hm).2
    obtain ⟨hup, hmem, hplace⟩ := h.place hl he.toValid hm
    obtain ⟨hnode, hname⟩ := T.single ((h.kind e he.toValid he.ne_root).mp he.isDir) hentry hplace
    rw [← h.inj parent _ hp hup.toValid hup.ne_root hnode] at hmem
    exact hnew e hmem hname.symm
  refine ⟨h.rehoused hl ?_, ?_, ?_, ?_, ?_, ?_, ?_, ?_⟩
  · refine ⟨ha.table, ha.mpl, ha.files, ha.file, fun d hd _ => hinode (hold hd), fun d hd => ?_, fun hord d hd hm => ?_,
      fun d hrefs hdir => ?_⟩
    · by_cases hdf : d = s.fresh
      · refine ⟨parent, hp.live, by rw [hdf, hitem], fun heq => absurd heq hp.ne_root, fun hpos => ⟨hp.positive, ?_⟩⟩
        obtain ⟨i, hi⟩ := Option.isSome_iff_exists.mp hpos
        have hin : s'.inode d = i := by rw [State.inode, hi]; rfl
        rw [hdf, ha.item, State.newDentry] at hi
        obtain ⟨j, -, rfl⟩ := Option.map_eq_some_iff.mp hi
        rw [hin]
        exact ⟨rfl, rfl⟩
      · refine ⟨d, hlive hdf ▸ hd, (ha.kept hdf).2.2.1, id, fun hpos => ?_⟩
        rw [inode_congr (hinode hdf)]
        exact ⟨isPositive_congr (hinode hdf) ▸ hpos, rfl, rfl⟩
    · by_cases hdf : d = s.fresh
      · rw [hdf, hitem]
        exact hdot
      · rw [(ha.kept hdf).2.2.1] at hm
        rw [(ha.kept hdf).1]
        exact hord d (hlive hdf ▸ hd) hm
    · rw [isDir_congr (hinode (hold (hs.counted.balanced.used d hrefs).live))]
      exact hdir
  · rw [ha.store]
    exact h.view
  · intro m hm
    rw [ha.mpl] at hm
    rw [node_congr (hinode (hold (hl.mounts m hm).1))]
    exact h.roots m hm
  · intro d hd hne
    by_cases hdf : d = s.fresh
    · subst hdf
      exact hkind hd.positive
    · rw [isDir_congr (hinode hdf), node_congr (hinode hdf)]
      exact h.kind d ((hvalid hdf).mp hd) hne
  · intro d hd c hc
    by_cases hdf : d = s.fresh
    · rw [hdf, hitem] at hc
      cases hc
    have hd := (hfolder hdf).mp hd
    have old : c ∈ (s.dentry d).children → T.entry (s.node d) (s'.dentry c).name =
        (s'.dentry c).inode.map Inode.node := fun hc => by
      rw [(ha.kept (hkid hd.live hc)).1, hinode (hkid hd.live hc)]
      exact h.child d hd c hc
    rw [node_congr (hinode hdf)]
    rw [hchildren hdf] at hc
    split at hc
    · rename_i heq
      rcases List.mem_cons.mp hc with rfl | hc
      · rw [heq, ← hentry, hitem]
      · exact old hc
    · exact old hc
  · intro d hd hdir c hc
    by_cases hdf : d = s.fresh
    · rw [hdf, hitem] at hc
      cases hc
    rw [isDir_congr (hinode hdf)] at hdir
    have hne : d ≠ parent := fun heq => by
      rw [heq, hp.isDir] at hdir
      cases hdir
    rw [hchildren hdf, if_neg hne] at hc
    have hd := (hvalid hdf).mp hd
    rw [isPositive_congr (hinode (hkid hd.live hc))]
    exact h.plain d hd hdir c hc
  · intro d hd hc n y hy
    by_cases hdf : d = s.fresh
    · rw [hdf, hitem] at hc
      cases hc
    have hd := (hfolder hdf).mp hd
    have hcached : (s'.dentry d).cached = (s.dentry d).cached := by
      by_cases hdp : d = parent
      · rw [hdp, ha.folder]
        simp
      · rw [ha.other d hdf hdp]
    rw [node_congr (hinode hdf)] at hy
    obtain ⟨c, hmem, hname⟩ := h.cached d hd (hcached ▸ hc) n y hy
    refine ⟨c, (ha.grown hl).children d hd.live c hmem, ?_⟩
    rw [(ha.kept (hkid hd.live hmem)).1]
    exact hname
  · intro d e hd he hne heq
    by_cases hdf : d = s.fresh <;> by_cases hef : e = s.fresh
    · rw [hdf, hef]
    · have hpos : s'.isPositive s.fresh = true := hdf ▸ hd.positive
      have he := (hvalid hef).mp he
      rw [hdf, node_congr (hinode hef)] at heq
      have hdir : s.isDir e = true := by
        rw [h.kind e he hne, ← heq]
        exact (hkind hpos).mp (hdf ▸ hd.isDir)
      exact absurd heq.symm (clash ⟨he, hne, hdir⟩ hpos)
    · rw [hef, node_congr (hinode hdf)] at heq
      exact absurd heq (clash ((hfolder hdf).mp hd) (hef ▸ he.positive))
    · rw [node_congr (hinode hdf), node_congr (hinode hef)] at heq
      exact h.inj d e ((hfolder hdf).mp hd) ((hvalid hef).mp he) hne heq

section Flip
variable {ip : Option Inode} (hf : Flipped s dp ip s')
include hf

theorem Flipped.valid_ne (hd : d ≠ dp) : s'.Valid d ↔ s.Valid d := valid_congr (hf.inode_ne hd) (by rw [hf.live])

theorem Flipped.folder_ne (hd : d ≠ dp) : s'.Folder d ↔ s.Folder d := folder_congr (hf.inode_ne hd) (by rw [hf.live])

theorem Flipped.rehoused (hl : Linked s) (hlive : s.live dp = true) (hm : (s.dentry dp).mp ≠ dp)
    (hunused : s.refs dp = 0)
    (hup : s.Folder (s.up dp))
    (hvol : ∀ i, ip = some i → i.ops = (s.inode (s.up dp)).ops ∧ i.data = (s.inode (s.up dp)).data) :
      Rehoused s s' := by
  refine ⟨hf.table, hf.mpl, hf.files, hf.file, fun d _ hm' => hf.inode_ne fun heq => hm (heq ▸ hm'), fun d hd => ?_,
    fun hord d hd hm => ?_, fun d hrefs hd => ?_⟩
  · rw [(hf.kept d).2.2.1]
    rw [hf.live] at hd
    by_cases hdd : d = dp
    · rw [hdd, (hl.child _ hup.live dp (hl.listed dp hlive hm).2).2.2.1]
      refine ⟨s.up dp, hup.live, rfl, fun heq => absurd heq hup.ne_root, fun hpos => ⟨hup.positive, ?_⟩⟩
      have hsome : ip = some (s'.inode dp) := by
        rw [← inode_eq_some hpos, hf.item]
      exact hvol _ hsome
    · rw [inode_congr (hf.inode_ne hdd), hf.isPositive_ne hdd]
      exact ⟨d, hd, rfl, id, fun hpos => ⟨hpos, rfl, rfl⟩⟩
  · rw [(hf.kept d).2.2.1] at hm
    rw [(hf.kept d).1]
    exact hord d (hf.live ▸ hd) hm
  · have hdd : d ≠ dp := fun heq => hrefs (by rw [heq, hunused])
    rw [isDir_congr (hf.inode_ne hdd)]
    exact hd

end Flip

section
variable (h : Coherent V T s) {r : Φ × Int × Inode}
include h

theorem Coherent.make (hs : Sound s) {flags : Nat}
    (hf : Flipped s dp (some r.2.2) s') (hc : MakeCall s dp flags r) (hst : 0 ≤ r.2.1) (hφ : s'.store = r.1) :
    ∃ T', Coherent V T' s' := by
  have hl := hs.linked
  obtain ⟨hup, dir, hmade⟩ := h.made hl hc
  obtain ⟨hx, hy, hview⟩ : ∃ (hx : T.isDir (s.node (s.up dp))) (hy : T.Fresh r.2.2.node),
    V r.1 = some (T.put (s.dentry dp).name dir hx hy) := hmade.put hst
  have hmem := (hl.listed dp hc.live hc.inner).2
  have hne : dp ≠ root := fun heq => hc.inner (heq ▸ hl.root_mp)
  have hself : (s'.dentry dp).inode = some r.2.2 := by rw [hf.item]
  have hinode : s'.inode dp = r.2.2 := by rw [State.inode, hself]; rfl
  have hnode : s'.node dp = r.2.2.node := by rw [State.node, hinode]
  have hdir : s'.isDir dp = dir := by
    rw [State.isDir, hinode]
    exact hmade.kind hst
  -- the new object is that of no other dentry
  have hnew : ∀ {e}, s.Valid e → e ≠ root → s.node e ≠ r.2.2.node := fun {e} he hne heq => by
    by_cases hm : (s.dentry e).mp = e
    · exact hy.dir (heq ▸ (h.kind e he hne).mp (h.isRoot hl he.live hne hm).1)
    · exact hy.entry _ _ (heq ▸ (h.place hl he hm).2.2)
  have hnegative : ∀ c ∈ (s.dentry dp).children, c ≠ dp ∧ s.isPositive c = false := fun c hmem => by
    have hup := (hl.child dp hc.live c hmem).2.1
    refine ⟨fun heq => hl.up_ne hc.live hc.inner (by rw [← heq] at hup ⊢; exact hup), ?_⟩
    by_contra hpos
    have := hl.above c (hl.child dp hc.live c hmem).1 (Bool.eq_true_of_not_eq_false hpos)
    rw [hup, hc.negative] at this
    cases this
  have hempty : ∀ n, T.entry r.2.2.node n = none := Namespace.empty_of_not_isDir hy.dir
  have hput : ∀ {d}, s.Folder d → ∀ {c}, c ∈ (s.dentry d).children → c ≠ dp →
      ¬(s.node d = s.node (s.up dp) ∧ (s.dentry c).name = (s.dentry dp).name) := fun hd c hc hcd heq =>
    hcd (h.entry_inj hl hd hup heq.1 hc hmem heq.2)
  have hfolder_ne : ∀ n, ¬(r.2.2.node = s.node (s.up dp) ∧ n = (s.dentry dp).name) := fun n heq =>
    hnew hup.toValid hup.ne_root heq.1.symm
  have hunused : s.refs dp = 0 := by
    by_contra hrefs
    exact absurd (hc.negative.symm.trans (hs.counted.balanced.used dp hrefs).positive) (by decide)
  refine ⟨T.put (s.dentry dp).name dir hx hy,
    h.rehoused hl (hf.rehoused hl hc.live hc.inner hunused hup fun i hi => ?_),
    hφ ▸ hview, fun m hm => ?_, ?_, ?_, ?_, ?_, ?_⟩
  · exact Option.some.inj hi ▸ hmade.volume hst
  · rw [hf.mpl] at hm
    rw [node_congr (hf.inode_ne fun heq => hc.inner (heq ▸ (hl.mounts m hm).2.1))]
    exact h.roots m hm
  · intro d hd hdne
    rw [Namespace.put_isDir]
    by_cases hdd : d = dp
    · rw [hdd, hdir, hnode]
      exact ⟨fun hdir => .inr ⟨hdir, rfl⟩, fun hor => hor.elim (fun hd => absurd hd hy.dir) And.left⟩
    · have hd := (hf.valid_ne hdd).mp hd
      rw [isDir_congr (hf.inode_ne hdd), node_congr (hf.inode_ne hdd), h.kind d hd hdne]
      exact ⟨.inl, fun hor => hor.elim id fun heq => absurd heq.2 (hnew hd hdne)⟩
  · intro d hd c hmemc
    rw [(hf.kept d).2.2.2.1] at hmemc
    rw [(hf.kept c).1, Namespace.put_entry]
    by_cases hdd : d = dp
    · rw [hdd] at hmemc
      obtain ⟨hcd, hneg⟩ := hnegative c hmemc
      rw [hdd, hnode, hf.inode_ne hcd, if_neg (hfolder_ne _), hempty]
      have : (s.dentry c).inode = none := by simpa [State.isPositive, Dentry.isPositive] using hneg
      rw [this]
      rfl
    · have hd := (hf.folder_ne hdd).mp hd
      rw [node_congr (hf.inode_ne hdd)]
      by_cases hcd : c = dp
      · rw [hcd, (hl.child d hd.live c hmemc).2.1.symm, hcd, if_pos ⟨rfl, rfl⟩, hself]
        rfl
      · rw [if_neg (hput hd hmemc hcd), hf.inode_ne hcd]
        exact h.child d hd c hmemc
  · intro d hd hdn c hmemc
    rw [(hf.kept d).2.2.2.1] at hmemc
    by_cases hdd : d = dp
    · rw [hdd] at hmemc
      obtain ⟨hcd, hneg⟩ := hnegative c hmemc
      rw [hf.isPositive_ne hcd]
      exact hneg
    · have hd := (hf.valid_ne hdd).mp hd
      rw [isDir_congr (hf.inode_ne hdd)] at hdn
      have hcd : c ≠ dp := fun heq => by
        rw [heq] at hmemc
        rw [← (hl.child d hd.live dp hmemc).2.1, hup.isDir] at hdn
        cases hdn
      rw [hf.isPositive_ne hcd]
      exact h.plain d hd hdn c hmemc
  · intro d hd hcached n z hz
    rw [(hf.kept d).2.2.2.1]
    rw [hf.cached_eq] at hcached
    rw [Namespace.put_entry] at hz
    by_cases hdd : d = dp
    · rw [hdd, hnode, if_neg (hfolder_ne n), hempty] at hz
      cases hz
    · have hd := (hf.folder_ne hdd).mp hd
      rw [node_congr (hf.inode_ne hdd)] at hz
      split at hz
      · rename_i heq
        rw [h.inj d _ hd hup.toValid hup.ne_root heq.1]
        exact ⟨dp, hmem, by rw [(hf.kept dp).1, heq.2]⟩
      · obtain ⟨c, hmemc, hname⟩ := h.cached d hd hcached n z hz
        exact ⟨c, hmemc, by rw [(hf.kept c).1, hname]⟩
  · intro d e hd he hene heq
    by_cases hdd : d = dp <;> by_cases hed : e = dp
    · rw [hdd, hed]
    · rw [hdd, hnode, node_congr (hf.inode_ne hed)] at heq
      exact absurd heq.symm (hnew ((hf.valid_ne hed).mp he) hene)
    · rw [hed, hnode, node_congr (hf.inode_ne hdd)] at heq
      have hd := (hf.folder_ne hdd).mp hd
      exact absurd heq (hnew hd.toValid hd.ne_root)
    · rw [node_congr (hf.inode_ne hdd), node_congr (hf.inode_ne hed)] at heq
      exact h.inj d e ((hf.folder_ne hdd).mp hd) ((hf.valid_ne hed).mp he) hene heq

theorem Coherent.drop (hs : Sound s) {r : Φ × Int} (hf : Flipped s dp none s')
    (hc : DropCall s dp r) (hst : r.2 = 0) (hφ : s'.store = r.1) : ∃ T', Coherent V T' s' := by
  have hl := hs.linked
  have hv : s.Valid dp := ⟨hc.live, hc.positive⟩
  have hne : dp ≠ root := fun heq => hc.inner (heq ▸ hl.root_mp)
  obtain ⟨hup, hmem, -⟩ := h.place hl hv hc.inner
  obtain ⟨hentry, hempty, hview⟩ : ∃ (hentry : T.entry (s.node (s.up dp)) (s.dentry dp).name = some (s.node dp))
    (he : T.Empty (s.node dp)), V r.1 = some (T.drop hentry he) := (h.dropCall hl hc).drop hst
  have hpositive : s'.isPositive dp = false := hf.isPositive_self
  have hvalid : ∀ {d}, s'.Valid d → d ≠ dp ∧ s.Valid d := fun {d} hd => by
    have hdd : d ≠ dp := fun heq => absurd (hpositive.symm.trans (heq ▸ hd.positive)) (by decide)
    exact ⟨hdd, (hf.valid_ne hdd).mp hd⟩
  have hfolder : ∀ {d}, s'.Folder d → d ≠ dp ∧ s.Folder d := fun hd =>
    ⟨(hvalid hd.toValid).1, (hf.folder_ne (hvalid hd.toValid).1).mp hd⟩
  refine ⟨T.drop hentry hempty, h.rehoused hl (hf.rehoused hl hc.live hc.inner (hs.unused hc.live hc.unused) hup nofun),
    hφ ▸ hview, fun m hm => ?_, ?_, ?_, ?_, ?_, ?_⟩
  · rw [hf.mpl] at hm
    rw [node_congr (hf.inode_ne fun heq => hc.inner (heq ▸ (hl.mounts m hm).2.1))]
    exact h.roots m hm
  · intro d hd hdne
    obtain ⟨hdd, hd⟩ := hvalid hd
    rw [isDir_congr (hf.inode_ne hdd), node_congr (hf.inode_ne hdd), Namespace.drop_isDir, ← h.kind d hd hdne]
    exact ⟨fun hdir => ⟨hdir, fun heq => hdd (h.inj d dp ⟨hd, hdne, hdir⟩ hv hne heq)⟩, And.left⟩
  · intro d hd c hc
    obtain ⟨hdd, hd⟩ := hfolder hd
    rw [(hf.kept d).2.2.2.1] at hc
    rw [(hf.kept c).1, node_congr (hf.inode_ne hdd), Namespace.drop_entry]
    by_cases hcd : c = dp
    · rw [hcd, (hl.child d hd.live c hc).2.1.symm, hcd, if_pos ⟨rfl, rfl⟩, hf.item]
      rfl
    · rw [if_neg fun heq => hcd (h.entry_inj hl hd hup heq.1 hc hmem heq.2), hf.inode_ne hcd]
      exact h.child d hd c hc
  · intro d hd hdir c hc
    obtain ⟨hdd, hd⟩ := hvalid hd
    rw [(hf.kept d).2.2.2.1] at hc
    rw [isDir_congr (hf.inode_ne hdd)] at hdir
    by_cases hcd : c = dp
    · rw [hcd]
      exact hpositive
    · rw [hf.isPositive_ne hcd]
      exact h.plain d hd hdir c hc
  · intro d hd hcached n y hy
    obtain ⟨hdd, hd⟩ := hfolder hd
    rw [hf.cached_eq] at hcached
    rw [node_congr (hf.inode_ne hdd), Namespace.drop_entry] at hy
    split at hy
    · cases hy
    · obtain ⟨c, hc, hname⟩ := h.cached d hd hcached n y hy
      rw [(hf.kept d).2.2.2.1]
      exact ⟨c, hc, by rw [(hf.kept c).1, hname]⟩
  · intro d e hd he hene heq
    obtain ⟨hdd, hd⟩ := hfolder hd
    obtain ⟨hed, he⟩ := hvalid he
    rw [node_congr (hf.inode_ne hdd), node_congr (hf.inode_ne hed)] at heq
    exact h.inj d e hd he hene heq

theorem Coherent.rename (hs : Sound s) {src dst : Nat}
    (hr : Renamed s src dst r.2.2 s') (hc : RenameCall s src dst r) (hst : 0 ≤ r.2.1) (hφ : s'.store = r.1) :
    ∃ T', Coherent V T' s' := by
  have hl := hs.linked
  have hmv := hc.movable hl
  have hsrc : s.Valid src := ⟨hc.moved.live, hc.positive⟩
  have hsne : src ≠ root := fun heq => hc.moved.inner (heq ▸ hl.root_mp)
  have hdne : dst ≠ root := fun heq => hc.replaced.inner (heq ▸ hl.root_mp)
  obtain ⟨hup, hsmem, -⟩ := h.place hl hsrc hc.moved.inner
  have hdmem := (hl.listed dst hc.replaced.live hc.replaced.inner).2
  obtain ⟨hup', hmoved⟩ := h.moved hl hc
  obtain ⟨hentry, hx, ho, hview⟩ : ∃ (hentry : T.entry (s.node (s.up src)) (s.dentry src).name = some (s.node src))
    (hx : T.isDir (s.node (s.up dst))) (ho : ∀ w, T.entry (s.node (s.up dst)) (s.dentry dst).name = some w → T.Empty w),
    V r.1 = some (T.move hentry hx ho) := hmoved.move hst
  have hself : s'.inode src = r.2.2 := by
    rw [State.inode, hr.item]
    rfl
  have hnode : ∀ d, s'.node d = s.node d := fun d => by
    by_cases hd : d = src
    · rw [hd, State.node, hself]
      exact hmoved.alike.1
    · exact node_congr (hr.inode_ne hd)
  have hdir : ∀ d, s'.isDir d = s.isDir d := fun d => by
    by_cases hd : d = src
    · rw [hd, State.isDir, hself]
      exact hmoved.alike.2
    · exact isDir_congr (hr.inode_ne hd)
  have hpos := hr.isPositive_eq hmv
  have hvalid : ∀ {d}, s'.Valid d → d ≠ dst ∧ s.Valid d := fun {d} hd =>
    ⟨(hr.live_iff.mp hd.live).2, (hr.live_iff.mp hd.live).1, hpos d ▸ hd.positive⟩
  have hfolder : ∀ {d}, s'.Folder d → d ≠ dst ∧ s.Folder d := fun {d} hd =>
    ⟨(hvalid hd.toValid).1, (hvalid hd.toValid).2, hd.ne_root, hdir d ▸ hd.isDir⟩
  have hname : (s'.dentry src).name = (s.dentry dst).name := by rw [hr.item]
  -- an entry of the new directory under the new name is the replaced dentry
  have hat : ∀ {d c}, s.Folder d → c ∈ (s.dentry d).children →
      s.node d = s.node (s.up dst) ∧ (s.dentry c).name = (s.dentry dst).name → c = dst := fun hd hc heq =>
    h.entry_inj hl hd hup' heq.1 hc hdmem heq.2
  have hfrom : ∀ {d c}, s.Folder d → c ∈ (s.dentry d).children →
      s.node d = s.node (s.up src) ∧ (s.dentry c).name = (s.dentry src).name → c = src := fun hd hc heq =>
    h.entry_inj hl hd hup heq.1 hc hsmem heq.2
  refine ⟨T.move hentry hx ho, h.rehoused hl ?_, hφ ▸ hview, fun m hm => ?_, ?_, ?_, ?_, ?_, ?_⟩
  · refine ⟨hr.table, hr.mpl, hr.files, hr.file, fun d _ hm => hr.inode_ne fun heq => hc.moved.inner (heq ▸ hm),
      fun d hd => ?_, fun hord d hd hm => ?_, fun d _ hd => (hdir d).trans hd⟩
    · refine ⟨d, (hr.live_iff.mp hd).1, hr.mp_eq d, id, fun hp => ⟨hpos d ▸ hp, ?_⟩⟩
      exact ⟨congrArg Node.ops (hnode d), congrArg Node.data (hnode d)⟩
    · rw [hr.mp_eq] at hm
      by_cases hds : d = src
      · rw [hds, hname]
        exact hord dst hc.replaced.live hc.replaced.inner
      · rw [(hr.kept hds).1]
        exact hord d (hr.live_iff.mp hd).1 hm
  · rw [hnode]
    exact h.roots m (hr.mpl ▸ hm)
  · intro d hd hne
    obtain ⟨hdd, hd⟩ := hvalid hd
    rw [hdir, hnode, Namespace.move_isDir, ← h.kind d hd hne]
    refine ⟨fun hdir => ⟨hdir, fun heq => ?_⟩, And.left⟩
    -- the replaced object would be that of another directory
    have hmap := h.child _ hup' dst hdmem
    rw [heq] at hmap
    have hp : s.isPositive dst = true := by
      have hsome := congrArg Option.isSome hmap
      rw [Option.isSome_map] at hsome
      exact hsome.symm
    rw [map_node hp] at hmap
    exact hdd (h.inj d dst ⟨hd, hne, hdir⟩ ⟨hc.replaced.live, hp⟩ hdne (Option.some.inj hmap))
  · intro d hd c hmem
    obtain ⟨hdd, hd⟩ := hfolder hd
    rw [hnode, Namespace.move_entry]
    rw [hl.renamed_children hmv hr hd.live] at hmem
    have stay : c ∈ s.staying src dst d → (T.move hentry hx ho).entry (s.node d) (s'.dentry c).name =
        (s'.dentry c).inode.map Inode.node := fun hmem => by
      rw [Namespace.move_entry]
      obtain ⟨hmem, hcs, hcd⟩ := (hl.mem_staying hd.live).mp hmem
      rw [(hr.kept hcs).1, hr.inode_ne hcs, if_neg fun heq => hcd (hat hd hmem heq),
        if_neg fun heq => hcs (hfrom hd hmem heq)]
      exact h.child d hd c hmem
    split at hmem
    · rename_i heq
      rcases List.mem_cons.mp hmem with rfl | hmem
      · rw [hname, heq, if_pos ⟨rfl, rfl⟩, map_node ((hpos c).trans hc.positive), hnode]
      · exact stay hmem
    · exact stay hmem
  · intro d hd hn c hmem
    obtain ⟨hdd, hd⟩ := hvalid hd
    rw [hdir] at hn
    have hne : d ≠ s.up dst := fun heq => by
      rw [heq, hup'.isDir] at hn
      cases hn
    rw [hl.renamed_children hmv hr hd.live, if_neg hne] at hmem
    rw [hpos]
    exact h.plain d hd hn c ((hl.mem_staying hd.live).mp hmem).1
  · intro d hd hcached n y hy
    obtain ⟨hdd, hd⟩ := hfolder hd
    rw [hr.cached_eq] at hcached
    rw [hnode, Namespace.move_entry] at hy
    rw [hl.renamed_children hmv hr hd.live]
    split at hy
    · rename_i heq
      rw [if_pos (h.inj d _ hd hup'.toValid hup'.ne_root heq.1)]
      exact ⟨src, List.mem_cons_self, hname.trans heq.2.symm⟩
    rename_i hnat
    split at hy
    · cases hy
    rename_i hnfrom
    obtain ⟨c, hmem, hcn⟩ := h.cached d hd hcached n y hy
    have hcs : c ≠ src := fun heq => by
      refine hnfrom ⟨?_, by rw [← hcn, heq]⟩
      rw [← (hl.child d hd.live c hmem).2.1, heq]
    have hcd : c ≠ dst := fun heq => by
      refine hnat ⟨?_, by rw [← hcn, heq]⟩
      rw [← (hl.child d hd.live c hmem).2.1, heq]
    have hstay := (hl.mem_staying hd.live).mpr ⟨hmem, hcs, hcd⟩
    refine ⟨c, ?_, by rw [(hr.kept hcs).1, hcn]⟩
    split
    · exact List.mem_cons_of_mem _ hstay
    · exact hstay
  · intro d e hd he hene heq
    rw [hnode, hnode] at heq
    exact h.inj d e (hfolder hd).2 (hvalid he).2 hene heq

theorem Coherent.origin {parent : Nat} {name : Name} {ip : Option Inode} (hp : s.Folder parent)
    (hdot : Ordinary name) (ho : Origin s parent name ip) :
    (∀ i, ip = some i → Shown T (s.inode parent) name i) ∧ (ip = none → T.entry (s.node parent) name = none) := by
  have hin := h.callIn hp
  cases ho with
  | found hfound =>
    refine ⟨fun i hi => ?_, nofun⟩
    cases hi
    exact ((h.obeys _).lookup hin hdot).2.1 _ hfound
  | missing hmissing => exact ⟨nofun, fun _ => ((h.obeys _).lookup hin hdot).2.2 hmissing⟩
  | @listed ip k hmem =>
    refine ⟨fun i hi => ?_, nofun⟩
    cases hi
    obtain ⟨E, hE⟩ := ((h.obeys _).readdir hin).2
    refine hE.shown name ip (List.mem_of_mem_drop (i := k) ?_)
    rw [← hE.drop k]
    exact List.mem_filter.mpr ⟨hmem, decide_eq_true hdot⟩

end

theorem Edit.coherent (he : Edit s s') (hs : Sound s) (h : Coherent V T s) : ∃ T', Coherent V T' s' := by
  have hl := hs.linked
  have same : ∀ {t : State Φ}, t.store = s.store → t.table = s.table → t.live = s.live → t.mpl = s.mpl →
      t.dentry = s.dentry → t.files = s.files → t.file = s.file → ∃ T', Coherent V T' t := by
    intro t hstore htable hlive hmpl hdentry hfiles hfile
    refine ⟨T, h.congr ⟨htable, hlive, hmpl, fun d => by rw [hdentry], fun d => by rw [hdentry],
      fun d => by rw [hdentry],
      fun d => by rw [hdentry], fun d => by rw [State.isDir, State.inode, hdentry, State.isDir, State.inode]⟩
      (hstore ▸ h.view) (fun d _ hc => .inl (hdentry ▸ hc)) ?_⟩
    rw [hfiles, hfile]
    exact h.opened
  cases he with
  | heap => exact same rfl rfl rfl rfl rfl rfl rfl
  | quiet hq => exact ⟨T, h.stored (h.quiet hl hq)⟩
  | @append parent name ip _ ha hp hn hdot hnew ho =>
    have hp := h.folder hp
    obtain ⟨hshown, hnone⟩ := h.origin hp hdot ho
    have hinode : (s'.dentry s.fresh).inode = ip.map (·.within (s.inode parent)) := by
      rw [ha.item]
      rfl
    refine ⟨T, h.append hs ha hp hn hdot hnew ?_ fun hpos => ?_⟩
    · rw [hinode]
      cases ip with
      | none => exact hnone rfl
      | some i => exact (hshown i rfl).entry
    · cases ip with
      | none =>
        rw [State.isPositive, Dentry.isPositive, hinode] at hpos
        cases hpos
      | some i =>
        have hin : s'.inode s.fresh = i.within (s.inode parent) := by
          rw [State.inode, hinode]
          rfl
        rw [State.isDir, State.node, hin]
        exact (hshown i rfl).kind
  | make hf hc hst hφ => exact h.make hs hf hc hst hφ
  | drop hf hc hst _ hφ => exact h.drop hs hf hc hst hφ
  | rename hr hc hst hφ => exact h.rename hs hr hc hst hφ
  | inode hd ht =>
    obtain ⟨hφ, hip⟩ := h.touched hl hd ht
    exact ⟨T, h.alike hd hφ hip⟩
  | mark hd hend => exact ⟨T, h.mark hl (h.folder hd) hend⟩
  | files hf => exact ⟨T, h.files hs.counted.held hf⟩

theorem Edits.coherent (he : Edits s s') (hs : Sound s) (h : Coherent V T s) : ∃ T', Coherent V T' s' := by
  induction he with
  | refl => exact ⟨T, h⟩
  | tail he he' ih =>
    obtain ⟨T', h'⟩ := ih
    exact he'.coherent (Edits.sound he hs) h'

end Novino.Vfs
