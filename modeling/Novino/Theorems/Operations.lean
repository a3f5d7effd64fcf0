import Novino.Theorems.Walks

/-! The operations of the VFS as sequences of edits. -/

namespace Novino.Vfs
open Chains Counts
open Ext2 (Name)

variable {Φ : Type} {s t : State Φ} {d c p f dp src dst flags : Nat} {path : Path}
  {op : Ops Φ → Option (Φ → Inode → Name → Inode → Φ × Int × Inode)} {old new : Path} {rd : Rd} {source : Option Path}

section Make
variable (h : Sound s) (hd : s.Found false dp) (hneg : s.isPositive dp = false)
  {op : Ops Φ → Option (Φ → Inode → Name → Inode → Φ × Int × Inode)} (hm : Maker Φ op flags)
  {make : Φ → Inode → Name → Inode → Φ × Int × Inode} (hop : op (s.ops (s.dentry dp).parent) = some make) (mode : Nat)
include h hd hneg

theorem Sound.negative_pos : (s.dentry (s.dentry dp).parent).negative ≠ 0 := by
  have hinner := h.linked.negative_inner hd.live hneg
  obtain ⟨hlive, hmem⟩ := h.linked.listed dp hd.live hinner
  have htally := h.linked.tally _ hlive false
  have hpos : 0 < (s.dentry (s.up dp)).children.countP fun c => s.isPositive c == false :=
    List.countP_pos_iff.mpr ⟨dp, hmem, by simp [hneg]⟩
  have heq : (s.dentry (s.up dp)).negative = _ := htally
  exact (heq ▸ hpos).ne'

variable (flags) in
theorem Sound.marked : (s.dcacheMarkPositive dp).store = s.store ∧
    (s.dcacheMarkPositive dp).inode (s.dentry dp).parent = s.inode (s.dentry dp).parent ∧
    ((s.dcacheMarkPositive dp).dentry dp).name = (s.dentry dp).name ∧
    (s.dcacheMarkPositive dp).newInode dp flags mode = s.madeInode (s.dentry dp).parent flags mode := by
  have hne : (s.dentry dp).parent ≠ dp := h.linked.up_ne hd.live (h.linked.negative_inner hd.live hneg)
  unfold State.dcacheMarkPositive
  rw [if_neg (by simp [hneg])]
  refine ⟨rfl, ?_, ?_, ?_⟩
  · simp [State.inode, State.modify, hne]
  · simp [State.modify, hne.symm]
  · simp [State.newInode, State.madeInode, State.inode, State.modify]

include hm hop

theorem Sound.makeCall : MakeCall s dp flags (make s.store (s.inode (s.dentry dp).parent) (s.dentry dp).name
    (s.madeInode (s.dentry dp).parent flags mode)) :=
  ⟨⟨hd.live, h.linked.negative_inner hd.live hneg⟩, hneg, (hd.negative hneg).2, op, make, mode, hm, hop, rfl⟩

theorem made_edits {φ : Φ} {status : Int} {ip : Inode} (hr : make (s.dcacheMarkPositive dp).store
      ((s.dcacheMarkPositive dp).inode (s.dentry dp).parent) ((s.dcacheMarkPositive dp).dentry dp).name
      ((s.dcacheMarkPositive dp).newInode dp flags mode) = (φ, status, ip)) :
    let t := { s.dcacheMarkPositive dp with store := φ }.modify dp fun d => { d with inode := some ip }
    let r : State Φ × Int := if status < 0 then (t.dcacheMarkNegative dp, status) else (t, status)
    Edits s r.1 ∧ r.1.proc = s.proc ∧ (0 ≤ r.2 → r.1.Valid dp) := by
  intro t r
  obtain ⟨h₁, h₂, h₃, h₄⟩ := h.marked flags hd hneg mode
  have hc := h.makeCall hd hneg hm hop mode
  rw [h₁, h₂, h₃, h₄] at hr
  rw [hr] at hc
  have hne : (s.dentry dp).parent ≠ dp := h.linked.up_ne hd.live hc.inner
  by_cases hst : status < 0
  · have hundo : t.dcacheMarkNegative dp = { s with store := φ } :=
      made_undone hneg hne (h.negative_pos hd hneg) φ ip
    rw [show r = _ from if_pos hst]
    dsimp only
    rw [hundo]
    exact ⟨.single (.quiet (.make hc hst)), rfl, fun hle => absurd hst (not_lt.mpr hle)⟩
  · have hflip : Flipped s dp (some ip) t := made_flipped hneg hne φ ip
    rw [show r = _ from if_neg hst]
    refine ⟨.single (.make hflip hc (not_lt.mp hst) rfl), hflip.proc, fun _ => ⟨?_, hflip.isPositive_self⟩⟩
    show t.live dp = true
    rw [hflip.live]
    exact hd.live

end Make

theorem vfsMake_found (h : Sound t)
    (hm : Maker Φ op flags) (mode : Nat) (hw : s.vfsWalkPath p path false = (t, .ok dp)) (hd : t.Found false dp) :
    Edits t (s.vfsMake op flags p path mode).1 ∧ (s.vfsMake op flags p path mode).1.proc = t.proc ∧
      (0 ≤ (s.vfsMake op flags p path mode).2 → (s.vfsMake op flags p path mode).1.Valid dp) := by
  unfold State.vfsMake
  rw [hw]
  dsimp only
  split
  · exact ⟨.refl, rfl, nofun⟩
  rename_i hneg
  have hneg := Bool.eq_false_of_not_eq_true hneg
  split
  · exact ⟨.refl, rfl, nofun⟩
  · rename_i make hop
    exact made_edits h hd hneg hm hop mode rfl

theorem vfsMake_edits (h : Sound s) (hp : (s.proc p).alive = true) (hn : path.Clean)
    (hm : Maker Φ op flags) (mode : Nat) :
    Edits s (s.vfsMake op flags p path mode).1 := by
  have hw := vfsWalkPath_walked h hp hn false
  rcases hto : s.vfsWalkPath p path false with ⟨t, o⟩
  rw [hto] at hw
  cases o with
  | error e =>
    unfold State.vfsMake
    rw [hto]
    exact hw.edits
  | ok dp => exact hw.edits.trans (vfsMake_found (hw.edits.sound h) hm mode hto (hw.found dp rfl)).1

/-- What is asked of a removal: `d` is not the root of a mount, and the file system refuses to remove it as long as the
cache has an entry in it. -/
structure State.Removable (s : State Φ) (op : Ops Φ → Option (Φ → Inode → Name → Inode → Φ × Int)) (dir : Bool)
    (d : Nat) : Prop where
  inner : (s.dentry d).mp ≠ d
  empty : s.isDir d = dir → (∃ c ∈ (s.dentry d).children, s.isPositive c = true) → ∀ drop, op (s.ops d) = some drop →
    (drop s.store (s.inode (s.dentry d).parent) (s.dentry d).name (s.inode d)).2 ≠ 0

theorem vfsDrop_edits (h : Sound s) (hp : (s.proc p).alive = true) (hn : path.Clean)
    {op : Ops Φ → Option (Φ → Inode → Name → Inode → Φ × Int)} {dir : Bool} (hm : Dropper Φ op dir)
    (hplain : ∀ t d, s.vfsWalkPath p path true = (t, .ok d) → t.Removable op dir d) (wrong : Int) :
    Edits s (s.vfsDrop op dir wrong p path).1 := by
  have hw := vfsWalkPath_walked h hp hn true
  unfold State.vfsDrop
  obtain ⟨t, o, hto⟩ : ∃ t o, s.vfsWalkPath p path true = (t, o) := ⟨_, _, rfl⟩
  rw [hto] at hw ⊢
  cases o with
  | error e => exact hw.edits
  | ok dp =>
    have hplain := hplain t dp hto
    have hv := (hw.found dp rfl).valid
    have ht := hw.edits.sound h
    dsimp only
    split
    · exact hw.edits
    rename_i hdir
    split
    · exact hw.edits
    rename_i hunused
    split
    · exact hw.edits
    rename_i drop hop
    obtain ⟨φ, status, hr⟩ : ∃ φ status, drop t.store (t.inode (t.dentry dp).parent) (t.dentry dp).name (t.inode dp) =
      (φ, status) := ⟨_, _, rfl⟩
    have hc : DropCall t dp (φ, status) := ⟨⟨hv.live, hplain.inner⟩, hv.positive, not_not.mp hunused, op, drop,
      not_not.mp hdir ▸ hm, hop, hr⟩
    rw [hr]
    dsimp only
    split
    · rename_i hst
      have hflip : Flipped t dp none _ := dropped_flipped hv.positive (ht.linked.up_ne hv.live hplain.inner) φ
      refine hw.edits.tail (.drop hflip hc hst (fun c hc => ?_) ?_)
      · by_contra hpos
        have hrefused := hplain.empty (not_not.mp hdir) ⟨c, hc, Bool.eq_true_of_not_eq_false hpos⟩ drop hop
        rw [hr] at hrefused
        exact hrefused hst
      · unfold State.dcacheMarkNegative
        split <;> rfl
    · rename_i hst
      exact hw.edits.tail (.quiet (.drop hc hst))

theorem climbs_above (hroot : s.up root = root) (hsrc : src ≠ root) {n : Nat} (h : s.climbs src n d = some false) :
    ¬Below s.up src d := by
  induction n generalizing d with
  | zero => cases h
  | succ n ih =>
    rw [State.climbs] at h
    split at h
    · rename_i hd
      rintro ⟨k, hk⟩
      rw [hd, Function.iterate_fixed hroot] at hk
      exact hsrc hk.symm
    · split at h
      · cases h
      · rename_i hd
        intro hb
        rcases below_iff.mp hb with heq | hb
        · exact hd heq
        · exact ih h hb

structure State.Checked (s : State Φ) (src dst : Nat) : Prop where
  unused : (s.dentry dst).numfd = 0
  ne : src ≠ dst
  flags : s.isPositive dst = true → (s.inode dst).flags = (s.inode src).flags
  mount : (s.dentry src).mp = (s.dentry dst).mp
  climb : s.isDir src = true → s.climbs src (s.fresh + 1) (s.dentry dst).parent = some false

theorem renameCheck_none {dst : Nat} (h : s.renameCheck src dst = none) : s.Checked src dst := by
  unfold State.renameCheck at h
  split at h
  · cases h
  split at h
  · cases h
  split at h
  · cases h
  split at h
  · cases h
  split at h
  · cases h
  rename_i hunused hne hflags hmp hclimb
  exact ⟨not_not.mp hunused, hne, fun hpos => not_not.mp fun hnot => hflags ⟨hpos, hnot⟩, not_not.mp hmp,
    fun hdir => not_not.mp fun hnot => hclimb ⟨hdir, hnot⟩⟩

theorem renameEnds_edits (h : Sound s) (hp : (s.proc p).alive = true) (hold : old.Clean)
    (hnew : new.Clean) : Edits s (s.renameEnds p old new).1 ∧ ∀ src dst, (s.renameEnds p old new).2 = .ok (src, dst) →
      (s.renameEnds p old new).1.Valid src ∧ (s.renameEnds p old new).1.Found false dst := by
  have hw := vfsWalkPath_walked h hp hold true
  unfold State.renameEnds
  obtain ⟨t, o, hto⟩ : ∃ t o, s.vfsWalkPath p old true = (t, o) := ⟨_, _, rfl⟩
  rw [hto] at hw ⊢
  cases o with
  | error e => exact ⟨hw.edits, nofun⟩
  | ok a =>
    have hw' := vfsWalkPath_walked (hw.edits.sound h) (by rw [hw.grown.proc]; exact hp) hnew false
    rcases huo : t.vfsWalkPath p new false with ⟨u, o⟩
    dsimp only
    rw [huo] at hw' ⊢
    cases o with
    | error e => exact ⟨hw.edits.trans hw'.edits, nofun⟩
    | ok b =>
      refine ⟨hw.edits.trans hw'.edits, fun src dst heq => ?_⟩
      cases heq
      exact ⟨hw'.grown.valid (hw.found a rfl).valid, hw'.found b rfl⟩

/-- What is asked of a rename: no root of a mount is moved or replaced, the cache has nothing below the replaced one,
and what is not a directory is not above it. -/
structure State.Renamable (s : State Φ) (src dst : Nat) : Prop where
  moved : (s.dentry src).mp ≠ src
  replaced : (s.dentry dst).mp ≠ dst
  alone : (s.dentry dst).children = []
  above : s.isDir src = true ∨ ¬Below s.up src (s.up dst)

theorem vfsRename_edits (h : Sound s) (hp : (s.proc p).alive = true) (hold : old.Clean)
    (hnew : new.Clean) (hplain :
      ∀ t src dst, s.renameEnds p old new = (t, .ok (src, dst)) → t.renameCheck src dst = none →
      t.Renamable src dst) :
    Edits s (s.vfsRename p old new).1 := by
  obtain ⟨hedits, hfound⟩ := renameEnds_edits h hp hold hnew
  unfold State.vfsRename
  obtain ⟨u, o, huo⟩ : ∃ u o, s.renameEnds p old new = (u, o) := ⟨_, _, rfl⟩
  rw [huo] at hedits hfound ⊢
  cases o with
  | error e => exact hedits
  | ok ends =>
    obtain ⟨src, dst⟩ := ends
    obtain ⟨hsrc, hdst⟩ := hfound src dst rfl
    have hu := hedits.sound h
    dsimp only
    cases hcheck : u.renameCheck src dst with
    | some status => exact hedits
    | none =>
      have hplain := hplain u src dst huo hcheck
      have hchecked := renameCheck_none hcheck
      dsimp only
      split
      · exact hedits
      rename_i rename hop
      obtain ⟨φ, status, ip, hr⟩ : ∃ φ status ip, rename u.store
        (u.inode (u.dentry src).parent, (u.dentry src).name, u.inode src)
        (u.inode (u.dentry dst).parent, (u.dentry dst).name, (u.dentry dst).inode) = (φ, status, ip) :=
        ⟨_, _, _, rfl⟩
      have hroot : src ≠ root := fun heq => hplain.moved (heq ▸ hu.linked.root_mp)
      have hc : RenameCall u src dst (φ, status, ip) := {
        moved := ⟨hsrc.live, hplain.moved⟩
        replaced := ⟨hdst.live, hplain.replaced⟩
        ne := hchecked.ne
        positive := hsrc.positive
        unused := hchecked.unused
        flags := hchecked.flags
        mount := hchecked.mount
        above := hplain.above.elim (fun hdir => climbs_above hu.linked.root_up hroot (hchecked.climb hdir)) id
        alone := hplain.alone
        short := hu.linked.short dst hdst.live hplain.replaced
        folder := fun hneg => (hdst.negative hneg).2
        call := ⟨rename, hop, hr⟩ }
      rw [hr]
      dsimp only
      split
      · rename_i hst
        exact hedits.tail (.inode hsrc (.rename hc hst))
      · rename_i hst
        have hmov := hc.movable hu.linked
        have hren := moved_renamed hc.ne (hu.linked.up_ne hsrc.live hplain.moved) hmov.folder_ne
          (hu.linked.source_ne hmov) (hu.linked.up_ne hdst.live hplain.replaced) hc.short φ ip
        exact hedits.tail (.rename hren hc (not_lt.mp hst) rfl)

def State.filed (s : State Φ) (p n : Nat) (x : File) : State Φ :=
  ({ s with mems := n, files := s.files + 1 }.modifyFile s.files fun _ => x).modifyProc p fun q =>
    { q with fds := (q.next, s.files) :: q.fds, next := q.next + 1 }

structure Answered (s t : State Φ) (dp : Nat) : Prop where
  edits : Edits s t
  valid : t.Valid dp
  files : t.files = s.files
  proc : t.proc = s.proc

theorem filed_modifyFile (s : State Φ) (p n : Nat) (x : File) (g : File → File) :
    (s.filed p n x).modifyFile s.files g = s.filed p n (g x) := by
  simp [State.filed, State.modifyFile, State.modifyProc]

theorem filed_delete (s : State Φ) (p n : Nat) {x : File} (hx : x.refs = 1) :
    ((s.filed p n x).fdDelete p (s.proc p).next s.files).1 = s.abandoned p n x := by
  simp [State.filed, State.fdDelete, State.abandoned, State.modifyFile, State.modifyProc, hx, dec]

theorem filed_openCall (s : State Φ) (p n : Nat) (x : File) (dp : Nat) :
    (s.filed p n x).openCall dp = ((s.openCall dp).1.filed p n x, (s.openCall dp).2) := by
  unfold State.openCall
  rw [show (s.filed p n x).ops dp = s.ops dp from rfl]
  cases (s.ops dp).openFile <;> rfl

theorem filed_truncateCall (s : State Φ) (p n : Nat) (x : File) (dp flags : Nat) :
    (s.filed p n x).truncateCall dp flags = ((s.truncateCall dp flags).1.filed p n x, (s.truncateCall dp flags).2) := by
  unfold State.truncateCall
  rw [show (s.filed p n x).ops dp = s.ops dp from rfl]
  cases (s.ops dp).truncate with
  | none => rfl
  | some truncate =>
    dsimp only
    cases has flags O_TRUNC <;> rfl

theorem openCall_answered (hd : s.Valid dp) : Answered s (s.openCall dp).1 dp := by
  unfold State.openCall
  cases hop : (s.ops dp).openFile with
  | none => exact ⟨.refl, hd, rfl, rfl⟩
  | some g => exact ⟨.single (.quiet (.openFile hd hop)), ⟨hd.live, hd.positive⟩, rfl, rfl⟩

theorem truncateCall_answered (hd : s.Valid dp) (flags : Nat) : Answered s (s.truncateCall dp flags).1 dp := by
  unfold State.truncateCall
  cases hop : (s.ops dp).truncate with
  | none => exact ⟨.refl, hd, rfl, rfl⟩
  | some g =>
    dsimp only
    split
    · refine ⟨.single (.inode hd (.truncate hop)), ⟨hd.live, ?_⟩, rfl, rfl⟩
      simp [State.isPositive, State.modify, Dentry.isPositive]
    · exact ⟨.refl, hd, rfl, rfl⟩

theorem openFile_edits (hp : (s.proc p).alive = true) (hd : s.Valid dp) {flags : Nat}
    (hdir : has flags O_DIR = true → flags = O_DIR ∧ s.isDir dp = true) : Edits s (s.openFile p dp flags).1 := by
  unfold State.openFile
  rcases s.fdCreate_cases p with ⟨n, hn⟩ | ⟨n, hn⟩
  · rw [hn]
    exact .single (.heap n)
  · have hfiled : s.fdCreate p = (s.filed p n { File.zero with refs := 1 }, some ((s.proc p).next, s.files)) := hn
    rw [hfiled]
    dsimp only
    rw [filed_modifyFile, filed_openCall]
    obtain ⟨t, st, hst⟩ : ∃ t st, s.openCall dp = (t, st) := ⟨_, _, rfl⟩
    have ht := openCall_answered hd
    rw [hst] at ht ⊢
    dsimp only
    have habandon : ∀ {u : State Φ}, Answered s u dp → ∀ x : File, x.refs = 1 →
        Edits s ((u.filed p n x).fdDelete p (s.proc p).next s.files).1 := fun {u} hu x hx => by
      rw [← hu.proc, ← hu.files, filed_delete u p n hx]
      exact hu.edits.tail (.files (.abandoned p n x))
    split
    · exact habandon ht _ rfl
    rw [filed_truncateCall]
    obtain ⟨u, st', hst'⟩ : ∃ u st', t.truncateCall dp flags = (u, st') := ⟨_, _, rfl⟩
    have hu := truncateCall_answered ht.valid flags
    rw [hst'] at hu ⊢
    have hu : Answered s u dp := ⟨ht.edits.trans hu.edits, hu.valid, hu.files.trans ht.files, hu.proc.trans ht.proc⟩
    dsimp only
    split
    · exact habandon hu _ rfl
    · have halive : (u.proc p).alive = true := by rw [hu.proc]; exact hp
      have hudir : has flags O_DIR = true → u.isDir dp = true := fun hflag => by
        -- an open as a directory truncates nothing
        obtain ⟨rfl, hisdir⟩ := hdir hflag
        have hut : u = t := by
          have h₁ : (t.truncateCall dp O_DIR).1 = t := by
            unfold State.truncateCall
            cases (t.ops dp).truncate <;> rfl
          rw [hst'] at h₁
          exact h₁
        have hts : t.isDir dp = s.isDir dp := by
          have h₁ : (s.openCall dp).1.isDir dp = s.isDir dp := by
            unfold State.openCall
            cases (s.ops dp).openFile <;> rfl
          rw [hst] at h₁
          exact h₁
        rw [hut, hts]
        exact hisdir
      split
      · rw [← hu.files, filed_modifyFile]
        exact hu.edits.tail (.files (.opened halive hu.valid hudir (u.inode dp).size n))
      · exact hu.edits.tail (.files (.opened halive hu.valid hudir 0 n))

section
variable (h : Sound s)
include h

theorem vfsOpen_edits (hp : (s.proc p).alive = true) (hn : path.Clean) (flags : Nat) :
    Edits s (s.vfsOpen p path flags).1 := by
  unfold State.vfsOpen
  split
  · exact .refl
  rename_i hflags
  have hw := vfsWalkPath_walked h hp hn false
  obtain ⟨t, o, hto⟩ : ∃ t o, s.vfsWalkPath p path false = (t, o) := ⟨_, _, rfl⟩
  rw [hto] at hw ⊢
  cases o with
  | error e => exact hw.edits
  | ok dp =>
    have ht := hw.edits.sound h
    have hd := hw.found dp rfl
    dsimp only
    -- the dentry exists or is made by a second walk along the same path
    have hmade : ∀ v : State Φ × Int, v = (if t.isPositive dp then (t, 0)
        else if has flags O_CREATE then t.vfsCreate p path 0o644 else (t, -Ext2.ENOENT)) →
        Edits s v.1 ∧ (v.1.proc p).alive = true ∧ (¬v.2 < 0 → v.1.Valid dp) := by
      rintro v rfl
      have halive : (t.proc p).alive = true := by rw [hw.grown.proc]; exact hp
      split
      · rename_i hpos
        exact ⟨hw.edits, halive, fun _ => ⟨hd.live, hpos⟩⟩
      · split
        · have hagain : t.vfsWalkPath p path false = (t, .ok dp) := by
            rw [State.vfsWalkPath, hw.grown.pathRoot]
            exact hw.again dp rfl t (Grown.refl t) ht.linked
          obtain ⟨he, hproc, hv⟩ := vfsMake_found ht .create 0o644 hagain hd
          exact ⟨hw.edits.trans he, by rw [State.vfsCreate, hproc]; exact halive, fun hst => hv (not_lt.mp hst)⟩
        · exact ⟨hw.edits, halive, fun hst => absurd (show -Ext2.ENOENT < 0 by decide) hst⟩
    generalize (if t.isPositive dp then (t, 0)
      else if has flags O_CREATE then t.vfsCreate p path 0o644 else (t, -Ext2.ENOENT) : State Φ × Int) = v at hmade ⊢
    obtain ⟨he, halive, hv⟩ := hmade v rfl
    split
    · exact he
    rename_i hst
    split
    · exact he
    · rename_i hcheck
      refine he.trans (openFile_edits halive (hv hst) fun hflag => ⟨not_not.mp fun hne => hflags ⟨hflag, hne⟩, ?_⟩)
      by_contra hnot
      refine hcheck ?_
      rw [State.openCheck, if_pos (by simp [hflag, hnot])]
      decide

theorem vfsClose_edits (p id : Nat) : Edits s (s.vfsClose p id).1 := by
  unfold State.vfsClose
  cases hf : s.fdFind p id with
  | none => exact .refl
  | some f =>
    have hv := h.counted.valid_file hf
    obtain ⟨-, hne⟩ := h.counted.held.file_open (fdFind_mem hf)
    dsimp only
    rcases hto : s.fdDelete p id f with ⟨t, o⟩
    have ht : (s.fdDelete p id f).1 = t := by rw [hto]
    have hrefs : (t.file f).refs = dec (s.file f).refs := by
      rw [← ht]
      simp [State.fdDelete, State.modifyFile, State.modifyProc]
    have ho : o = if (t.file f).refs = 0 then some f else none := by
      have h₂ : (s.fdDelete p id f).2 = o := by rw [hto]
      rw [← h₂, ← ht]
      rfl
    have hdec := dec_add_one hne
    by_cases hone : (s.file f).refs = 1
    · rw [ho, if_pos (by omega)]
      have hdentry : (t.file f).dentry = (s.file f).dentry := by
        rw [← ht]
        simp [State.fdDelete, State.modifyFile, State.modifyProc]
      have hops : t.ops (s.file f).dentry = s.ops (s.file f).dentry := by
        rw [← ht]
        rfl
      dsimp only
      rw [hdentry, hops]
      cases hop : (s.ops (s.file f).dentry).closeFile with
      | none =>
        dsimp only
        rw [← ht]
        exact .single (.files (.closed hf hone))
      | some g =>
        have hstate : { t with store := (g t.store (t.inode (s.file f).dentry)).1 } =
            (State.fdDelete { s with store := (g s.store (s.inode (s.file f).dentry)).1 } p id f).1 := by
          rw [← ht]
          rfl
        show Edits s (State.dentryClose { t with store := (g t.store (t.inode (s.file f).dentry)).1 } _)
        rw [hstate]
        exact .tail (.single (.quiet (.closeFile hv hop)))
          (.files (.closed (s := { s with store := (g s.store (s.inode (s.file f).dentry)).1 }) hf hone))
    · rw [ho, if_neg (by omega)]
      dsimp only
      rw [← ht]
      exact .single (.files (.dropped hf hone))

omit h in
theorem readCall_ok {p id size f n : Nat} {g : Φ → Inode → Nat → Nat → Φ × Int × List Byte}
    (hcall : s.readCall p id size = .ok (f, g, n)) :
    s.fdFind p id = some f ∧ (s.ops (s.file f).dentry).read = some g := by
  unfold State.readCall at hcall
  cases hf : s.fdFind p id with
  | none => simp [hf] at hcall
  | some f' =>
    cases hop : (s.ops (s.file f').dentry).read <;> simp only [hf, hop] at hcall <;> split_ifs at hcall
    all_goals
      cases hcall
      exact ⟨rfl, hop⟩

theorem vfsRead_edits (p id size : Nat) : Edits s (s.vfsRead p id size).1 := by
  unfold State.vfsRead
  cases hcall : s.readCall p id size with
  | error status => exact .refl
  | ok r =>
    obtain ⟨f, g, n⟩ := r
    obtain ⟨hf, hop⟩ := readCall_ok hcall
    have hq : Edits s { s with store := (g s.store (s.inode (s.file f).dentry) (s.file f).seek n).1 } :=
      .single (.quiet (.read (h.counted.valid_file hf) hop _ n))
    dsimp only
    split
    · exact hq
    split
    · exact hq.tail (.files (.move f _))
    · exact hq

theorem vfsWrite_edits (p id : Nat) (buf : List Byte) : Edits s (s.vfsWrite p id buf).1 := by
  unfold State.vfsWrite
  cases hf : s.fdFind p id with
  | none => exact .refl
  | some f =>
    have hv := h.counted.valid_file hf
    dsimp only
    split
    · exact .refl
    split
    · exact .refl
    cases hop : (s.ops (s.file f).dentry).write with
    | none => exact .refl
    | some g =>
      dsimp only
      obtain ⟨t, ht⟩ : ∃ t, t = if has (s.file f).flags O_APPEND then s.modifyFile f fun x =>
        { x with seek := (s.inode (s.file f).dentry).size } else s := ⟨_, rfl⟩
      rw [← ht]
      have hmoved : Edits s t ∧ t.Valid (s.file f).dentry ∧ t.ops (s.file f).dentry = s.ops (s.file f).dentry := by
        rw [ht]
        split
        · exact ⟨.single (.files (.move f _)), ⟨hv.live, hv.positive⟩, rfl⟩
        · exact ⟨.refl, hv, rfl⟩
      have hw : Edits s _ := hmoved.1.tail
        (.inode hmoved.2.1 (.write (by rw [hmoved.2.2]; exact hop) (t.file f).seek buf))
      split
      · exact hw
      split
      · exact hw.tail (.files (.move f _))
      · exact hw

theorem vfsSeek_edits (p id : Nat) (offset : Int) (origin : Nat) : Edits s (s.vfsSeek p id offset origin).1 := by
  unfold State.vfsSeek
  cases hf : s.fdFind p id with
  | none => exact .refl
  | some f =>
    have hv := h.counted.valid_file hf
    dsimp only
    split
    · exact .refl
    cases hop : (s.ops (s.file f).dentry).seek with
    | some g => exact .tail (.single (.quiet (.seek hv hop _ offset origin))) (.files (.move f _))
    | none =>
      dsimp only
      split
      · exact .refl
      · exact .single (.files (.move f _))

end

/-! ### Reading of directories -/

def State.at (s : State Φ) (f n : Nat) : State Φ := s.modifyFile f fun x => { x with seek := n }

theorem at_self (s : State Φ) (f : Nat) : s.at f (s.file f).seek = s := by
  show { s with file := Function.update s.file f (s.file f) } = s
  rw [Function.update_eq_self]

theorem at_at (s : State Φ) (f m n : Nat) : (s.at f m).at f n = s.at f n := by
  simp [State.at, State.modifyFile]

theorem at_file (s : State Φ) (f n : Nat) : (s.at f n).file f = { s.file f with seek := n } :=
    Function.update_self _ _ _

theorem putAll_at (rd : Rd) (hrd : rd.parent = none) (f : Nat) (entries : List (Name × Inode)) :
    ∃ n rd' k, s.putAll f rd entries = (s.at f n, rd', k) ∧ (k = entries.length →
      min 2 ((s.file f).seek + k) ≤ n ∧ rd'.parent = none ∧ (rd.status = rd.pos → rd'.status = rd'.pos)) := by
  induction entries generalizing s rd with
  | nil => exact ⟨(s.file f).seek, rd, 0, by rw [at_self]; rfl, fun _ => ⟨Nat.min_le_right .., hrd, id⟩⟩
  | cons e entries ih =>
    rw [State.putAll]
    rcases putDirent_none (s := s) _ hrd f e.1 e.2 with ⟨hle, hr⟩ | ⟨rd', hrd', hst, hr⟩ | ⟨rd', hr⟩
    · obtain ⟨n, rd', k, heq, h⟩ := ih rd hrd (s := s)
      refine ⟨n, rd', k + 1, by simp [hr, heq], fun hk => ?_⟩
      obtain ⟨hn, h⟩ := h (Nat.succ.inj hk)
      exact ⟨by omega, h⟩
    · have hr : _ = (s.at f ((s.file f).seek + 1), rd', true) := hr
      obtain ⟨n, rd'', k, heq, h⟩ := ih rd' hrd' (s := s.at f ((s.file f).seek + 1))
      refine ⟨n, rd'', k + 1, by simp [hr, heq, at_at], fun hk => ?_⟩
      obtain ⟨hn, hrd'', hst''⟩ := h (Nat.succ.inj hk)
      simp only [at_file] at hn
      exact ⟨by omega, hrd'', fun _ => hst'' hst⟩
    · exact ⟨_, rd', 0, by rw [hr, at_self], by simp⟩

theorem putAll_none (hrd : rd.parent = none) (f : Nat) (entries : List (Name × Inode)) :
    Edits s (s.putAll f rd entries).1 := by
  obtain ⟨n, rd', k, heq, -⟩ := putAll_at (s := s) rd hrd f entries
  rw [heq]
  exact .single (.files (.move f _))

theorem putDots_at (s : State Φ) (f size : Nat) : ∃ n rd b, s.putDots f { size } = (s.at f n, rd, b) ∧
    (b = true → 2 ≤ n ∧ rd.parent = none ∧ rd.status = rd.pos) := by
  obtain ⟨n, rd, k, heq, h⟩ := putAll_at (s := s) { size } rfl f (s.dots f)
  refine ⟨n, rd, _, by rw [putDots_eq rfl, heq], fun hk => ?_⟩
  obtain ⟨hn, hrd, hst⟩ := h (by simpa using hk)
  have hlen := s.dots_length f
  have hk : k = (s.dots f).length := by simpa using hk
  exact ⟨by omega, hrd, hst rfl⟩

/-! #### A call that puts nothing -/

theorem putDirent_status (hst : rd.status = rd.pos) (s : State Φ) (f : Nat) (name : Name) (ip : Inode) :
    (s.putDirent f rd name ip = (s, rd, true) ∧ (name = dot ∨ name = dotdot)) ∨
    (∃ u rd', s.putDirent f rd name ip = (u, rd', true) ∧ 0 < rd'.pos ∧ rd'.status = rd'.pos) ∨
    ∃ u rd', s.putDirent f rd name ip = (u, rd', false) ∧ rd'.status ≠ 0 := by
  have hlen : 0 < direntLen name := by
    unfold direntLen
    omega
  unfold State.putDirent
  split
  · rename_i hskip
    exact .inl ⟨rfl, hskip.2⟩
  right
  dsimp only
  split
  · cases hrd : rd.parent with
    | none => exact .inl ⟨_, _, rfl, by simp only; omega, rfl⟩
    | some parent =>
      dsimp only
      split
      · exact .inl ⟨_, _, rfl, by simp only; omega, rfl⟩
      generalize State.dcacheAppend _ parent name (some ip) = r
      obtain ⟨t, _ | c⟩ := r
      · exact .inr ⟨_, _, rfl, (by decide : (-Ext2.ENOMEM : Int) ≠ 0)⟩
      · exact .inl ⟨_, _, rfl, by simp only; omega, rfl⟩
  · refine .inr ⟨_, _, rfl, ?_⟩
    split
    · exact (by decide : (-EINVAL : Int) ≠ 0)
    · omega

theorem putAll_status (hpos : 0 < rd.pos) (hst : rd.status = rd.pos) (f : Nat)
    (entries : List (Name × Inode)) : (s.putAll f rd entries).2.1.status ≠ 0 := by
  induction entries generalizing s rd with
  | nil =>
    show rd.status ≠ 0
    omega
  | cons e entries ih =>
    obtain ⟨name, ip⟩ := e
    rw [State.putAll]
    rcases putDirent_status hst s f name ip with ⟨hr, -⟩ | ⟨u, rd', hr, hpos', hst'⟩ | ⟨u, rd', hr, hne⟩ <;> rw [hr]
    · exact ih hpos hst
    · exact ih hpos' hst'
    · exact hne

theorem putAll_idle (hst : rd.status = rd.pos) {entries : List (Name × Inode)}
    (hzero : (s.putAll f rd entries).2.1.status = 0) :
    (s.putAll f rd entries).1 = s ∧ ∀ e ∈ entries, e.1 = dot ∨ e.1 = dotdot := by
  induction entries with
  | nil => exact ⟨rfl, nofun⟩
  | cons e entries ih =>
    obtain ⟨name, ip⟩ := e
    rw [State.putAll] at hzero ⊢
    rcases putDirent_status hst s f name ip with ⟨hr, hdots⟩ | ⟨u, rd', hr, hpos', hst'⟩ | ⟨u, rd', hr, hne⟩ <;>
      rw [hr] at hzero ⊢
    · obtain ⟨h₁, h₂⟩ := ih hzero
      exact ⟨h₁, List.forall_mem_cons.mpr ⟨hdots, h₂⟩⟩
    · exact absurd hzero (putAll_status hpos' hst' f entries)
    · exact absurd hzero hne

/-- The state while the entries that a file system lists in directory `dp` are put, from position `k` on. -/
structure Putting (s t : State Φ) (f dp : Nat) : Prop where
  edits : Edits s t
  dir : t.ValidDir dp
  inode : t.inode dp = s.inode dp
  table : t.table = s.table
  store : t.store = s.store
  seek : 2 ≤ (t.file f).seek

section Put
variable {name : Name} {ip : Inode} {rd : Rd} {k : Nat} (h : Sound s)
include h

theorem putDirent_putting (hput : Putting s t f dp) (hrd : rd.parent = some dp)
    (hmem : (name, ip) ∈ ((s.ops dp).readdir s.store (s.inode dp) k).entries) (hn : name.length < MAX_LFN) :
    Putting s (t.putDirent f rd name ip).1 f dp ∧ (t.putDirent f rd name ip).2.1.parent = some dp := by
  unfold State.putDirent
  split
  · exact ⟨hput, hrd⟩
  rename_i hskip
  have hdot : Ordinary name :=
    not_or.mp fun hor => hskip ⟨hput.seek, hor⟩
  dsimp only
  split
  · rw [hrd]
    dsimp only
    obtain ⟨u, hu⟩ : ∃ u, u = t.modifyFile f fun x => { x with seek := x.seek + 1 } := ⟨_, rfl⟩
    have hmoved : Putting s u f dp := by
      refine ⟨hput.edits.tail (hu ▸ .files (.move f _)), ?_, ?_, ?_, ?_, ?_⟩
      · refine hu ▸ ⟨⟨hput.dir.live, hput.dir.positive⟩, hput.dir.directory.imp id fun ⟨g, hg, hrefs, hflag, hdp⟩ => ?_,
          hput.dir.ne_root⟩
        refine ⟨g, hg, ?_, ?_, ?_⟩
        · exact (apply_update_same t.file (·.refs) (by rfl) g).trans_ne hrefs
        · exact (congrArg (has · O_DIR) (apply_update_same t.file (·.flags) (by rfl) g)).trans hflag
        · exact (apply_update_same t.file (·.dentry) (by rfl) g).trans hdp
      · exact hu ▸ hput.inode
      · exact hu ▸ hput.table
      · exact hu ▸ hput.store
      · have := hput.seek
        simp [hu, State.modifyFile]
        omega
    rw [← hu]
    split
    · exact ⟨hmoved, rfl⟩
    rename_i hnew
    have hu' := hmoved.edits.sound h
    have hpf : dp ≠ u.fresh := Nat.ne_of_lt (hu'.linked.bound _ hmoved.dir.live)
    rcases dcacheAppend_cases hpf name (some ip) with ⟨-, heq⟩ | ⟨v, -, heq, ha⟩
    · rw [heq]
      exact ⟨⟨hmoved.edits.tail (.heap _), ⟨⟨hmoved.dir.live, hmoved.dir.positive⟩, hmoved.dir.directory,
        hmoved.dir.ne_root⟩, hmoved.inode, hmoved.table, hmoved.store, hmoved.seek⟩, rfl⟩
    · rw [heq]
      have ho : Origin u dp name (some ip) := by
        refine .listed k ?_ hdot
        rw [State.ops, hmoved.inode, hmoved.table, hmoved.store]
        exact hmem
      have hg := ha.grown hu'.linked
      refine ⟨⟨hmoved.edits.tail (.append ha hmoved.dir hn hdot (dcacheLookup_eq_none.mp (by simpa using hnew)) ho),
        hg.validDir hmoved.dir, (ha.inode_eq hpf).trans hmoved.inode, ha.table.trans hmoved.table,
        ha.store.trans hmoved.store, ?_⟩, rfl⟩
      rw [ha.file]
      exact hmoved.seek
  · refine ⟨hput, ?_⟩
    split
    · exact hrd
    · exact hrd

theorem putAll_putting (hput : Putting s t f dp) (hrd : rd.parent = some dp) {entries : List (Name × Inode)}
    (hmem : ∀ e ∈ entries, e ∈ ((s.ops dp).readdir s.store (s.inode dp) k).entries)
    (hn : ∀ e ∈ entries, e.1.length < MAX_LFN) : Putting s (t.putAll f rd entries).1 f dp := by
  induction entries generalizing t rd with
  | nil => exact hput
  | cons e entries ih =>
    obtain ⟨name, ip⟩ := e
    obtain ⟨hp, hrd'⟩ := putDirent_putting h hput hrd (hmem _ List.mem_cons_self) (hn _ List.mem_cons_self)
    rw [State.putAll]
    obtain ⟨u, rd', b, hr⟩ : ∃ u rd' b, t.putDirent f rd name ip = (u, rd', b) := ⟨_, _, _, rfl⟩
    rw [hr] at hp hrd' ⊢
    cases b with
    | false => exact hp
    | true =>
      exact ih hp hrd' (fun e he => hmem e (List.mem_cons_of_mem _ he)) fun e he => hn e (List.mem_cons_of_mem _ he)

theorem readEntries_edits (hrd : rd.parent = none) (hst : rd.status = rd.pos) (hseek : 2 ≤ (s.file f).seek)
    (hv : s.Valid (s.file f).dentry) (hdir : s.Directory (s.file f).dentry)
    (hn : ∀ k, ∀ e ∈ ((s.ops (s.file f).dentry).readdir s.store (s.inode (s.file f).dentry) k).entries,
      e.1.length < MAX_LFN) : Edits s (s.readEntries f rd).1 := by
  obtain ⟨dp, hdp⟩ : ∃ dp, dp = (s.file f).dentry := ⟨_, rfl⟩
  rw [← hdp] at hv hdir hn
  unfold State.readEntries
  dsimp only
  rw [← hdp]
  split
  · exact putAll_none hrd f _
  rename_i hroot
  split
  · exact putAll_none hrd f _
  have hvd : s.ValidDir dp := ⟨hv, hdir, hroot⟩
  obtain ⟨k, hk⟩ : ∃ k, k = (s.file f).seek - 2 := ⟨_, rfl⟩
  rw [← hk]
  obtain ⟨E, hE⟩ : ∃ E, E = ((s.ops dp).readdir s.store (s.inode dp) k).entries := ⟨_, rfl⟩
  have hput : Putting s (s.putAll f { rd with parent := some dp } E).1 f dp :=
    putAll_putting h (k := k) ⟨.refl, hvd, rfl, rfl, rfl, hseek⟩ rfl (fun e he => hE ▸ he) (hE ▸ hn k)
  have hidle : (s.putAll f { rd with parent := some dp } E).2.1.status = 0 → _ := fun hzero =>
    putAll_idle (by exact hst) hzero
  rw [← hE]
  obtain ⟨t, rd', n, hr⟩ : ∃ t rd' n, s.putAll f { rd with parent := some dp } E = (t, rd', n) := ⟨_, _, _, rfl⟩
  rw [hr] at hput hidle ⊢
  -- the file system ends the call; a mark of the directory can be made before
  have hdone : ∀ u : State Φ, Edits s u → u.ValidDir dp → u.inode dp = s.inode dp → u.table = s.table →
      u.store = s.store → Edits s { u with store := (((s.ops dp).readdir s.store (s.inode dp) k).done n).1 } := by
    intro u he hu hinode htable hstore
    have hq := Quiet.readdir hu k n
    rw [State.ops, hinode, htable, hstore] at hq
    exact he.tail (.quiet hq)
  have hend := hdone t hput.edits hput.dir hput.inode hput.table hput.store
  dsimp only
  split
  · exact hend
  split
  · rename_i hmark
    obtain ⟨hts, hdots⟩ := hidle hmark.1
    have hts : t = s := hts
    subst hts
    have hpos : k = (t.dentry dp).positive := by
      have := hmark.2
      omega
    have hmarked : Edit t (t.modify dp fun d => { d with cached := true }) := .mark hvd (hpos ▸ hE ▸ hdots)
    have hinode : (t.modify dp fun d => { d with cached := true }).inode dp = t.inode dp := by
      simp [State.inode, State.modify]
    refine hdone _ (.single hmarked) ⟨⟨hv.live, ?_⟩, ?_, hroot⟩ hinode rfl rfl
    · have hpos := hv.positive
      simpa [State.isPositive, State.modify, Dentry.isPositive] using hpos
    · rw [State.Directory, State.isDir, hinode]
      exact hdir
  · exact hend

end Put

def State.ShortEntries (s : State Φ) (d : Nat) : Prop :=
  ∀ k, ∀ e ∈ ((s.ops d).readdir s.store (s.inode d) k).entries, e.1.length < MAX_LFN

theorem vfsReaddir_edits (h : Sound s) (p id size : Nat)
    (hn : ∀ f, s.fdFind p id = some f → s.ShortEntries (s.file f).dentry) : Edits s (s.vfsReaddir p id size).1 := by
  unfold State.vfsReaddir
  cases hf : s.fdFind p id with
  | none => exact .refl
  | some f =>
    dsimp only
    split
    · exact .refl
    rename_i hflag
    obtain ⟨n, rd, b, hr, hb⟩ := putDots_at s f size
    have he : Edits s (s.at f n) := .single (.files (.move f n))
    rw [hr]
    cases b with
    | false => exact he
    | true =>
      obtain ⟨hseek, hrd, hst⟩ := hb rfl
      have hv := h.counted.valid_file hf
      obtain ⟨hlt, hne⟩ := h.counted.held.file_open (fdFind_mem hf)
      have hfile := at_file s f n
      refine he.trans (readEntries_edits (he.sound h) hrd hst ?_ ?_ ?_ ?_) <;> rw [hfile]
      · exact hseek
      · exact ⟨hv.live, hv.positive⟩
      · refine .inr ⟨f, hlt, ?_, ?_, ?_⟩ <;> rw [hfile]
        · exact hne
        · simpa using hflag
      · exact hn f hf

theorem vfsChdir_edits (h : Sound s) (hp : (s.proc p).alive = true) (hn : path.Clean) :
    Edits s (s.vfsChdir p path).1 := by
  have hw := vfsWalkPath_walked h hp hn true
  unfold State.vfsChdir
  obtain ⟨t, o, hto⟩ : ∃ t o, s.vfsWalkPath p path true = (t, o) := ⟨_, _, rfl⟩
  rw [hto] at hw ⊢
  cases o with
  | error e => exact hw.edits
  | ok d =>
    dsimp only
    split
    · exact hw.edits
    split
    · exact hw.edits
    · rename_i hne
      exact hw.edits.tail (.files (.chdir (by rw [hw.grown.proc]; exact hp) (hw.found d rfl).valid hne))

theorem vfsClose_alive (s : State Φ) (p id q : Nat) : ((s.vfsClose p id).1.proc q).alive = (s.proc q).alive := by
  unfold State.vfsClose
  cases s.fdFind p id with
  | none => rfl
  | some f =>
    have hdel : ((s.fdDelete p id f).1.proc q).alive = (s.proc q).alive :=
      apply_update_same s.proc (·.alive) (by rfl) q
    dsimp only
    obtain ⟨t, o, hto⟩ : ∃ t o, s.fdDelete p id f = (t, o) := ⟨_, _, rfl⟩
    rw [hto] at hdel ⊢
    cases o with
    | none => exact hdel
    | some g =>
      dsimp only
      cases (t.ops (t.file g).dentry).closeFile with
      | none => exact hdel
      | some closeFile => exact hdel

theorem closeAll_edits (p n : Nat) (h : Sound s) (hp : (s.proc p).alive = true) :
    Edits s (State.closeAll p n s) ∧ ((State.closeAll p n s).proc p).alive = true := by
  induction n generalizing s with
  | zero => exact ⟨.refl, hp⟩
  | succ n ih =>
    rw [State.closeAll]
    split
    · exact ⟨.refl, hp⟩
    · have he := vfsClose_edits h p
      rename_i fd fds hfds
      obtain ⟨h₁, h₂⟩ := ih ((he fd.1).sound h) ((vfsClose_alive s p fd.1 p).trans hp)
      exact ⟨(he fd.1).trans h₁, h₂⟩

theorem procExit_edits (h : Sound s) (hp : (s.proc p).alive = true) : Edits s (s.procExit p) := by
  obtain ⟨he, halive⟩ := closeAll_edits p (s.proc p).fds.length h hp
  exact he.tail (.files (.ended halive))

theorem fdClone_edits {id q : Nat} (hf : s.fdFind p id = some f) (hq : (s.proc q).alive = true) :
    Edits s (s.fdClone f q) := by
  unfold State.fdClone State.alloc
  cases s.mem s.mems with
  | false => exact .single (.heap _)
  | true => exact .single (.files (.cloned hf hq (s.mems + 1)))

theorem mountSource_edits (h : Sound s) (hp : (s.proc p).alive = true)
    (hn : ∀ path, source = some path → path.Clean) : Edits s (s.mountSource p source).1 ∧
    Grown s (s.mountSource p source).1 := by
  cases source with
  | none => exact ⟨.refl, Grown.refl s⟩
  | some path =>
    have hw := vfsWalkPath_walked h hp (hn path rfl) true
    unfold State.mountSource
    obtain ⟨t, o, hto⟩ : ∃ t o, s.vfsWalkPath p path true = (t, o) := ⟨_, _, rfl⟩
    dsimp only
    rw [hto] at hw ⊢
    cases o with
    | error e => exact ⟨hw.edits, hw.grown⟩
    | ok d =>
      dsimp only
      split
      · exact ⟨hw.edits, hw.grown⟩
      · exact ⟨hw.edits, hw.grown⟩

theorem vfsMount_changes (h : Sound s) (hp : (s.proc p).alive = true)
    (hn : ∀ path, source = some path → path.Clean) (fstype target : Name) :
    Changes s (s.vfsMount p source fstype target).1 := by
  unfold State.vfsMount
  split
  · exact .refl
  split
  · exact .refl
  rename_i fs _
  split
  · exact .refl
  rename_i hmp
  obtain ⟨he, hg⟩ := mountSource_edits h hp hn
  obtain ⟨t, o, hto⟩ : ∃ t o, s.mountSource p source = (t, o) := ⟨_, _, rfl⟩
  rw [hto] at he hg ⊢
  have ht : Changes s t := he.changes
  cases o with
  | error e => exact ht
  | ok dev =>
    dsimp only
    rcases hφ : (t.table fs).mount t.store dev with ⟨φ, o⟩
    have hcall : Changes s { t with store := φ } := ht.tail (.inr (.call φ))
    cases o with
    | none => exact hcall
    | some root =>
      obtain ⟨data, inode⟩ := root
      dsimp only [State.alloc]
      cases t.mem t.mems with
      | false => exact hcall.tail (.inr (.heap (t.mems + 1) true))
      | true =>
        have hheap : Changes s { t with store := φ, mems := t.mems + 1 } :=
          hcall.tail (.inr (.heap (t.mems + 1) t.fault))
        have hnone : State.findMp { t with store := φ, mems := t.mems + 1 } target = none :=
          (hg.findMp target).trans (Option.not_isSome_iff_eq_none.mp hmp)
        exact hheap.tail (.inr (.mount hnone fs data inode))

theorem vfsUmount_changes (s : State Φ) (target : Name) : Changes s (s.vfsUmount target).1 := by
  unfold State.vfsUmount
  cases hmp : s.findMp target with
  | none => exact .refl
  | some mp =>
    dsimp only
    split
    · exact .refl
    rename_i hn
    have hcall : Changes s { s with store := ((s.table mp.ops).umount s.store (s.inode mp.dentry).data).1 } :=
      .single (.inr (.call _))
    split
    · exact hcall
    · exact hcall.tail (.inr (.umount (List.mem_of_find?_eq_some hmp) (not_not.mp hn)))

end Novino.Vfs
