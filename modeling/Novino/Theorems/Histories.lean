import Novino.Theorems.Operations
import Novino.Theorems.Positions
import Novino.Vfs.Calls

/-! Histories of calls from `vfs_init` on: the cache stays a tree, and all references are counted. -/

namespace Novino.Vfs
open Chains Steps
open Ext2 (Name oneGroup)

variable {Φ : Type} {s : State Φ} {c : Call}

/-- What is asked of a call: the names that it puts into the cache fit, and what it removes, moves or replaces can be
taken out of the cache. -/
def State.Plain (s : State Φ) : Call → Prop
  | .lookup _ path _ | .create _ path _ | .mkdir _ path _ | .openFile _ path _ | .chdir _ path => path.Clean
  | .remove p path => path.Clean ∧ ∀ t d, s.vfsWalkPath p path true = (t, .ok d) → t.Removable Ops.remove false d
  | .rmdir p path => path.Clean ∧ ∀ t d, s.vfsWalkPath p path true = (t, .ok d) → t.Removable Ops.rmdir true d
  | .rename p old new => old.Clean ∧ new.Clean ∧
    ∀ t src dst, s.renameEnds p old new = (t, .ok (src, dst)) → t.renameCheck src dst = none → t.Renamable src dst
  | .readdir p id _ => ∀ f, s.fdFind p id = some f → s.ShortEntries (s.file f).dentry
  | .mount _ source _ _ => ∀ path, source = some path → path.Clean
  | .closeFile _ _ | .read _ _ _ | .write _ _ _ | .seek _ _ _ _ | .clone _ _ _ | .start _ | .exit _ | .umount _ _ =>
    True

def Call.isInner : Call → Bool
  | .mount _ _ _ _ | .umount _ _ => false
  | _ => true

theorem call_edits (h : Sound s) (hr : s.running c = true) (hc : s.Plain c) (hin : c.isInner = true) :
    Edits s (s.call c) := by
  cases c with
  | lookup p path mustexist => exact (vfsWalkPath_walked h hr hc mustexist).edits
  | create p path mode => exact vfsMake_edits h hr hc .create mode
  | mkdir p path mode => exact vfsMake_edits h hr hc .mkdir mode
  | remove p path => exact vfsDrop_edits h hr hc.1 .remove hc.2 _
  | rmdir p path => exact vfsDrop_edits h hr hc.1 .rmdir hc.2 _
  | rename p old new => exact vfsRename_edits h hr hc.1 hc.2.1 hc.2.2
  | openFile p path flags => exact vfsOpen_edits h hr hc flags
  | closeFile p id => exact vfsClose_edits h p id
  | read p id size => exact vfsRead_edits h p id size
  | write p id buf => exact vfsWrite_edits h p id buf
  | seek p id offset origin => exact vfsSeek_edits h p id offset origin
  | readdir p id size => exact vfsReaddir_edits h p id size hc
  | clone p id target =>
    have hr : (s.proc p).alive = true ∧ (s.proc target).alive = true := Bool.and_eq_true_iff.mp hr
    rw [State.call]
    split
    · exact .refl
    · rename_i f hf
      exact fdClone_edits hf hr.2
  | chdir p path => exact vfsChdir_edits h hr hc
  | start parent =>
    refine .single (.files (.started parent fun p hp => ?_))
    rw [hp] at hr
    exact hr
  | exit p => exact procExit_edits h hr
  | mount | umount => cases hin

theorem step_changes (h : Sound s) (hc : s.Plain c) : Changes s (s.step c) := by
  unfold State.step
  split
  · rename_i hr
    cases hin : c.isInner with
    | true => exact (call_edits h hr hc hin).changes
    | false =>
      cases c with
      | mount p source fstype target => exact vfsMount_changes h hr hc fstype target
      | umount p target => exact vfsUmount_changes s target
      | _ => cases hin
  · exact .refl

theorem step_sound (h : Sound s) (hc : s.Plain c) : Sound (s.step c) := (step_changes h hc).sound h

section Init
variable (table : Nat → Ops Φ) (fsl : List (Name × Nat)) (store : Φ) (mem : Nat → Bool) (now : Nat)

theorem vfsInit_linked : Linked (State.vfsInit table fsl store mem now) := by
  have hlive : ∀ {d}, (State.vfsInit table fsl store mem now).live d = true ↔ d = root := fun {d} => beq_iff_eq
  constructor
  · rfl
  · rfl
  · rfl
  · rfl
  · exact fun d hd => (hlive.mp hd) ▸ Nat.zero_lt_one
  · exact fun d _ c hc => nomatch hc
  · exact fun c hc hm => absurd (hlive.mp hc).symm hm
  · exact fun d _ => List.nodup_nil
  · exact fun d _ a ha => nomatch ha
  · intro d _ b
    cases b <;> rfl
  · exact fun d _ => ⟨rfl, rfl⟩
  · exact fun m hm => nomatch hm
  · exact fun d hd _ => .inl (hlive.mp hd)
  · exact ⟨List.nodup_nil, List.nodup_nil⟩
  · exact fun d hd => hlive.mp hd ▸ Below.refl _ _
  · exact fun d _ _ => rfl
  · exact fun d hd hm => absurd (hlive.mp hd).symm hm

theorem vfsInit_sound : Sound (State.vfsInit table fsl store mem now) := by
  refine ⟨vfsInit_linked table fsl store mem now, ⟨⟨fun d _ => rfl, fun m hm _ => ?_, fun d hd => absurd rfl hd⟩,
    ⟨fun p _ => ⟨rfl, rfl⟩, fun p fd hfd => (nomatch hfd), fun f hf => (nomatch hf)⟩⟩⟩
  obtain rfl : m = root := beq_iff_eq.mp hm
  rfl

end Init

/-- The dentries are a finite tree. Roots of mounts are found in the list of mounts; each other one is once in the child
list of its parent. Siblings have different names, and the counts of a dentry are the numbers of its positive and
negative children. -/
structure IsTree (s : State Φ) : Prop where
  finite : ∀ d, s.live d = true → d < s.fresh
  acyclic : ∀ d, s.live d = true → Below s.up root d
  children : ∀ d, s.live d = true → ∀ c ∈ (s.dentry d).children, s.live c = true
  listed : ∀ c, s.live c = true → (s.dentry c).mp ≠ c → s.live (s.up c) = true ∧
    ∀ d, s.live d = true → (s.dentry d).children.count c = if d = s.up c then 1 else 0
  roots : ∀ c, s.live c = true → (s.dentry c).mp = c → s.up c = root ∧ (c = root ∨ ∃ m ∈ s.mpl, m.dentry = c) ∧
    ∀ d, s.live d = true → c ∉ (s.dentry d).children
  names : ∀ d, s.live d = true → ∀ a ∈ (s.dentry d).children, ∀ b ∈ (s.dentry d).children,
    (s.dentry a).name = (s.dentry b).name → a = b
  positive : ∀ d, s.live d = true → (s.dentry d).positive = (s.dentry d).children.countP s.isPositive
  negative : ∀ d, s.live d = true → (s.dentry d).negative = (s.dentry d).children.countP fun c => !s.isPositive c

theorem Linked.isTree (h : Linked s) : IsTree s where
  finite := h.bound
  acyclic := h.climbs
  children d hd c hc := (h.child d hd c hc).1
  listed c hc hm := by
    obtain ⟨hlive, hmem⟩ := h.listed c hc hm
    refine ⟨hlive, fun d hd => ?_⟩
    split
    · rename_i heq
      exact heq ▸ List.count_eq_one_of_mem (h.nodup _ hlive) hmem
    · rename_i hne
      exact List.count_eq_zero.mpr fun hc => hne (h.child d hd c hc).2.1.symm
  roots c hc hm := by
    refine ⟨?_, h.mounted c hc hm, fun d hd hmem => (h.child d hd c hmem).2.2.2 hm⟩
    rcases h.mounted c hc hm with rfl | ⟨m, hmem, rfl⟩
    · exact h.root_up
    · exact (h.mounts m hmem).2.2.1
  names := h.names
  positive d hd := (h.tally d hd true).trans (List.countP_congr fun c _ => by simp)
  negative d hd := (h.tally d hd false).trans (List.countP_congr fun c _ => by simp)

/-- In every history of plain calls the dentries are a tree after every call. -/
theorem dentries_form_tree (table : Nat → Ops Φ) (fsl : List (Name × Nat)) (store : Φ) (mem : Nat → Bool) (now : Nat)
    (calls : List Call) (h : Along State.step State.Plain (State.vfsInit table fsl store mem now) calls) :
    Along State.step (fun s c => IsTree s ∧ IsTree (s.step c)) (State.vfsInit table fsl store mem now) calls :=
  h.imp (I := Sound) (fun _ _ hs hc => step_sound hs hc)
    (fun _ _ hs hc => ⟨hs.linked.isTree, (step_sound hs hc).linked.isTree⟩) (vfsInit_sound table fsl store mem now)

/-! ### A replaced directory -/

/-- The inode table of a volume with a root directory in block 8 and the directories `a` and `b` in blocks 9 and 10. -/
def dirTable : Block := fun i =>
  match i with
  -- inode 2: mode, size, links, sectors and first block
  | 128 => 0xED | 129 => 0x41 | 133 => 0x10 | 154 => 4 | 156 => 8 | 168 => 8
  -- inodes 3 and 4
  | 256 => 0xED | 257 => 0x41 | 261 => 0x10 | 282 => 2 | 284 => 8 | 296 => 9
  | 384 => 0xED | 385 => 0x41 | 389 => 0x10 | 410 => 2 | 412 => 8 | 424 => 10
  | _ => 0

def topDir : Block := fun i =>
  match i with
  | 0 => 2 | 4 => 12 | 6 => 1 | 8 => 0x2E
  | 12 => 2 | 16 => 12 | 18 => 2 | 20 => 0x2E | 21 => 0x2E
  | 24 => 3 | 28 => 12 | 30 => 1 | 32 => 0x61
  | 36 => 4 | 40 => 0xDC | 41 => 0x0F | 42 => 1 | 44 => 0x62
  | _ => 0

def emptyDir (ino : Byte) : Block := fun i =>
  match i with
  | 0 => ino | 4 => 12 | 6 => 1 | 8 => 0x2E
  | 12 => 2 | 16 => 0xF4 | 17 => 0x0F | 18 => 2 | 20 => 0x2E | 21 => 0x2E
  | _ => 0

def dirVolume : Ext2.State :=
  Ext2.State.mounted oneGroup (oneGroup.packedImage (fun _ => 16) (fun _ => 0)
    (fun _ i => if i = 2 ∨ i = 3 then 0 else 0xFF)
    (fun _ _ => 0xFF) fun b =>
      if b = 4 then dirTable else if b = 8 then topDir else if b = 9 then emptyDir 3 else if b = 10 then emptyDir 4
      else Block.zero) 16 0

def dirInit : State Ext2.State := State.vfsInit (fun _ => ext2Ops) [(ext2Name, 1)] dirVolume (fun _ => true) 0

def mountCalls : List Call := [.start none, .mount 0 none ext2Name mountName]

def pathA : Path := ⟨true, [mountName, [0x61]]⟩
def pathX : Path := ⟨true, [mountName, [0x61], [0x78]]⟩
def pathB : Path := ⟨true, [mountName, [0x62]]⟩

theorem dentries_form_tree_rename :
    Along State.step (fun s c => IsTree s ∧ IsTree (s.step c)) dirInit (mountCalls ++ [Call.rename 0 pathB pathA]) := by
  refine dentries_form_tree _ _ _ _ _ _ ⟨trivial, nofun, ⟨by decide, by decide, fun t src dst h _ => ?_⟩, trivial⟩
  obtain ⟨s, hs⟩ : ∃ s, s = (dirInit.step (.start none)).step (.mount 0 none ext2Name mountName) := ⟨_, rfl⟩
  have h : s.renameEnds 0 pathB pathA = (t, .ok (src, dst)) := hs ▸ h
  have hends : (s.renameEnds 0 pathB pathA).2.toOption = some (2, 3) := by subst hs; decide +kernel
  have ht : (s.renameEnds 0 pathB pathA).1 = t := by rw [h]
  rw [h] at hends
  obtain ⟨rfl, rfl⟩ : src = 2 ∧ dst = 3 := by simpa [Except.toOption] using hends
  subst ht hs
  exact ⟨by decide +kernel, by decide +kernel, by decide +kernel, .inl (by decide +kernel)⟩

section Orphan
set_option maxRecDepth 4000

/-- Directory `a` is replaced by `b` after a file in it was looked up: the negative dentry of that file stays, and its
parent is freed. -/
theorem replaced_directory_leaves_orphan :
    let s := (mountCalls ++ [Call.lookup 0 pathX false, Call.rename 0 pathB pathA]).foldl State.step dirInit
    s.live 3 = true ∧ s.up 3 = 2 ∧ s.live 2 = false ∧ ¬IsTree s := by
  obtain ⟨s, hs⟩ : ∃ s, s =
    (mountCalls ++ [Call.lookup 0 pathX false, Call.rename 0 pathB pathA]).foldl State.step dirInit :=
    ⟨_, rfl⟩
  have h₁ : s.live 3 = true := by subst hs; decide +kernel
  have h₂ : s.up 3 = 2 := by subst hs; decide +kernel
  have h₃ : s.live 2 = false := by subst hs; decide +kernel
  have h₄ : (s.dentry 3).mp ≠ 3 := by subst hs; decide +kernel
  dsimp only
  rw [← hs]
  refine ⟨h₁, h₂, h₃, fun h => ?_⟩
  have hup := (h.listed 3 h₁ h₄).1
  rw [h₂, h₃] at hup
  cases hup

end Orphan

structure State.Usable (s : State Φ) (d : Nat) : Prop extends s.Valid d where
  mounted : (s.dentry d).mp = root ∨ ∃ m ∈ s.mpl, m.dentry = (s.dentry d).mp

/-- All references are counted: each dentry counts the open files and the working directories on it, each mount the
references to its dentries, and they go to dentries that are neither freed nor negative and whose file system is
mounted. -/
structure RefsCounted (s : State Φ) : Prop where
  numfd : ∀ d, s.live d = true → (s.dentry d).numfd = s.refs d
  mounts : ∀ m, (m = root ∨ ∃ mp ∈ s.mpl, mp.dentry = m) → s.mpNumfd m = s.mountRefs m
  files : ∀ f < s.files, (s.file f).refs ≠ 0 → s.Usable (s.file f).dentry
  cwds : ∀ p < s.procs, (s.proc p).alive = true → s.Usable (s.proc p).cwd

theorem Sound.usable (h : Sound s) {d : Nat} (hd : s.Valid d) : s.Usable d := by
  obtain ⟨hlive, hmp⟩ := h.linked.mount d hd.live
  exact ⟨hd, h.linked.mounted _ hlive hmp⟩

theorem Sound.refsCounted (h : Sound s) : RefsCounted s where
  numfd := h.counted.balanced.numfd
  mounts m hm := by
    rcases hm with rfl | ⟨mp, hmem, rfl⟩
    · exact h.counted.balanced.mounts root h.linked.root_live h.linked.root_mp
    · obtain ⟨h₁, h₂, -⟩ := h.linked.mounts mp hmem
      exact h.counted.balanced.mounts _ h₁ h₂
  files f hf hrefs := h.usable (h.counted.valid_open hf hrefs)
  cwds p _ hp := h.usable (h.counted.valid_cwd hp)

/-- In every history of plain calls all references are counted after every call. -/
theorem references_counted (table : Nat → Ops Φ) (fsl : List (Name × Nat)) (store : Φ) (mem : Nat → Bool) (now : Nat)
    (calls : List Call) (h : Along State.step State.Plain (State.vfsInit table fsl store mem now) calls) :
    Along State.step (fun s c => RefsCounted s ∧ RefsCounted (s.step c)) (State.vfsInit table fsl store mem now)
      calls :=
  h.imp (I := Sound) (fun _ _ hs hc => step_sound hs hc)
    (fun _ _ hs hc => ⟨hs.refsCounted, (step_sound hs hc).refsCounted⟩) (vfsInit_sound table fsl store mem now)

theorem references_counted_chdir :
    Along State.step (fun s c => RefsCounted s ∧ RefsCounted (s.step c)) dirInit
      (mountCalls ++ [Call.chdir 0 pathA, Call.start (some 0), Call.exit 0]) :=
  references_counted _ _ _ _ _ _ ⟨trivial, nofun, (by decide : pathA.Clean), trivial, trivial, trivial⟩

def longName : Name := List.replicate 300 0x41

/-- A lookup of a name of 300 bytes that does not exist: the name runs over the number of references of its dentry. -/
theorem long_name_counted :
    let s := (mountCalls ++ [Call.lookup 0 ⟨true, [mountName, longName]⟩ false]).foldl State.step dirInit
    s.live 2 = true ∧ (s.dentry 2).numfd = 0x41414141 ∧ s.refs 2 = 0 ∧ ¬RefsCounted s := by
  obtain ⟨s, hs⟩ : ∃ s, s =
    (mountCalls ++ [Call.lookup 0 ⟨true, [mountName, longName]⟩ false]).foldl State.step dirInit :=
    ⟨_, rfl⟩
  have h₁ : s.live 2 = true := by subst hs; decide +kernel
  have h₂ : (s.dentry 2).numfd = 0x41414141 := by subst hs; decide +kernel
  have h₃ : s.refs 2 = 0 := by subst hs; decide +kernel
  dsimp only
  rw [← hs]
  refine ⟨h₁, h₂, h₃, fun h => ?_⟩
  have hnum := h.numfd 2 h₁
  rw [h₂, h₃] at hnum
  cases hnum

theorem climbs_of_up {src d n : Nat} (hup : s.up^[n] d = root) :
    ∃ b, s.climbs src (n + 1) d = some b ∧ (b = true → Below s.up src d) := by
  induction n generalizing d with
  | zero => exact ⟨false, if_pos hup, nofun⟩
  | succ n ih =>
    rw [State.climbs]
    split_ifs with hroot hsrc
    · exact ⟨false, rfl, nofun⟩
    · exact ⟨true, rfl, fun _ => hsrc ▸ Below.refl s.up d⟩
    · obtain ⟨b, hb, hbelow⟩ := ih hup
      exact ⟨b, hb, fun h => (hbelow h).step⟩

/-- The search of `vfs_rename` for the moved directory above its new place always ends, and its answer is right. -/
theorem rename_climb_exact (table : Nat → Ops Φ) (fsl : List (Name × Nat)) (store : Φ) (mem : Nat → Bool) (now : Nat)
    (calls : List Call) {src d : Nat} (h : Along State.step State.Plain (State.vfsInit table fsl store mem now) calls)
    (hs : calls.foldl State.step (State.vfsInit table fsl store mem now) = s) (hsrc : src ≠ root)
      (hd : s.live d = true) :
    ∃ b, s.climbs src (s.fresh + 1) d = some b ∧ (b = true ↔ Below s.up src d) := by
  have hl : Linked s := hs ▸ (h.invariant (fun _ _ hs hc => step_sound hs hc)
    (vfsInit_sound table fsl store mem now)).linked
  have hlt : ∀ k, s.up^[k] d < s.fresh := fun k => hl.bound _ (hl.below_live hd ⟨k, rfl⟩)
  obtain ⟨b, hb, hbelow⟩ := climbs_of_up ((hl.climbs d hd).bounded hl.root_up hlt)
  refine ⟨b, hb, hbelow, fun h => ?_⟩
  by_contra hfalse
  rw [Bool.eq_false_of_not_eq_true hfalse] at hb
  exact climbs_above hl.root_up hsrc hb h

theorem rename_climb_exact_lookup :
    let s := (mountCalls ++ [Call.lookup 0 pathX false]).foldl State.step dirInit
    s.up 3 = 2 ∧ s.up 2 = 1 ∧ ∃ b, s.climbs 1 (s.fresh + 1) 3 = some b ∧ (b = true ↔ Below s.up 1 3) := by
  have hclean : pathX.Clean := by decide
  exact ⟨by decide +kernel, by decide +kernel, rename_climb_exact _ _ _ _ _ (mountCalls ++ [Call.lookup 0 pathX false])
    ⟨trivial, nofun, hclean, trivial⟩ rfl (by decide) (by decide +kernel)⟩

end Novino.Vfs
