import Novino.Theorems.Histories
import Novino.Theorems.Normal

/-! The path of the working directory. -/

namespace Novino.Vfs
open Chains Steps
open Ext2 (Name)

variable {Φ : Type} {s s' t : State Φ}

def State.MountNames (s : State Φ) : Prop := ∀ m ∈ s.mpl, (s.dentry m.dentry).name = m.name

theorem Edit.mounts (he : Edit s s') (h : Linked s) :
    s'.mpl = s.mpl ∧ ∀ d, s.live d = true → (s.dentry d).mp = d → (s'.dentry d).name = (s.dentry d).name := by
  cases he with
  | heap | quiet => exact ⟨rfl, fun _ _ _ => rfl⟩
  | append ha => exact ⟨ha.mpl, fun d hd _ => (ha.kept (Nat.ne_of_lt (h.bound d hd))).1⟩
  | make hf | drop hf => exact ⟨hf.mpl, fun d _ _ => (hf.kept d).1⟩
  | rename hr hc => exact ⟨hr.mpl, fun d _ hm => (hr.kept fun heq => hc.moved.inner (heq ▸ hm)).1⟩
  | inode | mark =>
    refine ⟨rfl, fun d _ _ => ?_⟩
    rw [State.modify_dentry]
    split <;> rfl
  | files hf => exact ⟨hf.sameShape.mpl, fun d _ _ => Dentry.shape_name (hf.sameShape.shape d)⟩

theorem Edit.mountNames (he : Edit s s') (h : Linked s) (hm : s.MountNames) : s'.MountNames := by
  obtain ⟨hmpl, hname⟩ := he.mounts h
  intro m hmem
  rw [hmpl] at hmem
  obtain ⟨hlive, hmp, -⟩ := h.mounts m hmem
  rw [hname _ hlive hmp]
  exact hm m hmem

theorem MountEdit.mountNames (he : MountEdit s s') (h : Linked s) (hm : s.MountNames) : s'.MountNames := by
  cases he with
  | call | heap => exact hm
  | mount hn fs data inode =>
    intro m hmem
    show (Function.update s.dentry s.fresh _ m.dentry).name = m.name
    rcases List.mem_cons.mp hmem with rfl | hmem
    · rw [Function.update_self]
    · rw [Function.update_of_ne (Nat.ne_of_lt (h.bound _ (h.mounts m hmem).1))]
      exact hm m hmem
  | umount => exact fun m hmem => hm m (List.mem_of_mem_erase hmem)

theorem Changes.mountNames (hc : Changes s s') (h : Sound s) (hm : s.MountNames) : s'.MountNames := by
  induction hc with
  | refl => exact hm
  | tail hc he ih =>
    have hl := (Changes.sound hc h).linked
    exact he.elim (fun he => he.mountNames hl ih) fun he => he.mountNames hl ih

section Text
variable {names : List Name} {room : Nat} {buf : List Byte}

theorem vfsNewPath_pathText (hp : ∀ n ∈ names, Proper n) : vfsNewPath (pathText names) = ⟨true, names⟩ := by
  have hclean : vfsCleanPath (pathText (stack 0 names)) = _ := vfsCleanPath_pathText hp
  have hstack : stack 0 names = names := rfl
  rw [hstack] at hclean
  rw [vfsNewPath, hclean]
  cases names with
  | nil => decide
  | cons name rest =>
    have hsplit : (pathText (name :: rest)).splitOn slash = [] :: name :: rest := by
      have hcat := List.splitOn_intercalate slash (fun n hn => (hp n hn).2.2) (List.cons_ne_nil name rest)
      rw [pathText, if_neg (List.cons_ne_nil name rest), render_eq_cons (List.cons_ne_nil name rest)]
      rw [List.splitOn_cons_eq_if_modifyHead, if_pos (beq_self_eq_true slash), hcat]
    have hkeep : (name :: rest).filter (· ≠ []) = name :: rest :=
      List.filter_eq_self.mpr fun n hn => decide_eq_true fun hnil => (hp n hn).1 (.inl hnil)
    rw [hsplit]
    refine congrArg₂ Path.mk ?_ ?_
    · rw [pathText, if_neg (List.cons_ne_nil name rest)]
      rfl
    · rw [List.filter_cons_of_neg (by simp)]
      exact hkeep

/-- The bytes of the names that fit are written, each with a slash. -/
def cwdLength (room : Nat) (names : List Name) : Nat := ((names.takeWhile (·.length ≤ room)).map (·.length + 1)).sum

theorem foldlM_putName (names : List Name) (buf : List Byte) :
    (∃ text, names.foldlM (putName room) buf = .ok text ∧ text = buf ++ (render names.reverse).reverse ∧
      text.length = buf.length + cwdLength room names) ∨
    ∃ r, names.foldlM (putName room) buf = .error r ∧ r.status = -ERANGE ∧
      ((r.most = 0 ∧ buf.length + cwdLength room names = 0) ∨ r.most = buf.length + cwdLength room names + 1) := by
  induction names generalizing buf with
  | nil => exact .inl ⟨buf, rfl, by simp [render], rfl⟩
  | cons name names ih =>
    rw [List.foldlM_cons, putName]
    by_cases hlong : room < name.length
    · have hnone : cwdLength room (name :: names) = 0 := by
        rw [cwdLength, List.takeWhile_cons_of_neg (by simpa using hlong)]
        rfl
      rw [if_pos hlong, hnone]
      refine .inr ⟨_, rfl, rfl, ?_⟩
      dsimp only
      split
      · rename_i hnil
        exact .inl ⟨rfl, by rw [hnil]; rfl⟩
      · exact .inr rfl
    · have hsum : cwdLength room (name :: names) = name.length + 1 + cwdLength room names := by
        rw [cwdLength, List.takeWhile_cons_of_pos (by simpa using hlong), List.map_cons, List.sum_cons, cwdLength]
      have hlen : (buf ++ (name.reverse ++ [slash])).length + cwdLength room names =
          buf.length + cwdLength room (name :: names) := by
        rw [hsum]
        simp only [List.length_append, List.length_reverse, List.length_singleton]
        omega
      rw [if_neg hlong]
      rcases ih (buf ++ (name.reverse ++ [slash])) with ⟨text, heq, htext, hl⟩ | ⟨r, heq, hst, hmost⟩
      · refine .inl ⟨text, heq, ?_, hl.trans hlen⟩
        rw [htext, List.reverse_cons, render_concat]
        simp
      · rw [hlen] at hmost
        exact .inr ⟨r, heq, hst, hmost⟩

end Text

section Loop
variable {names : List Name} {room parent d : Nat} {n : Nat} {buf : List Byte} {r : Cwd}

theorem getcwdLoop_walk (room : Nat) (h : Sound s) (hm : s.MountNames) (hp : s.Valid parent)
    (hn : ∀ n ∈ names, Proper n ∧ n.length < MAX_LFN) (hwalk : State.walkLoop true s parent names = (t, .ok d))
    (n : Nat) (buf : List Byte) :
    t.getcwdLoop room (names.length + (n + 1)) d buf =
      match names.reverse.foldlM (putName room) buf with
      | .error r => some r
      | .ok buf => t.getcwdLoop room (n + 1) parent buf := by
  induction names generalizing s parent n buf with
  | nil =>
    obtain ⟨rfl, rfl⟩ : s = t ∧ parent = d := by
      rw [State.walkLoop] at hwalk
      simpa using hwalk
    rw [List.length_nil, Nat.zero_add]
    rfl
  | cons name names ih =>
    have hn' := fun n hm => hn n (List.mem_cons_of_mem _ hm)
    obtain ⟨hproper, hshort⟩ := hn name List.mem_cons_self
    -- the rounds below the dentry `c` of the first component, and its own
    have climb (c : Nat) (hc : c ≠ root) (hname : (t.dentry c).name = name) (hup : (t.dentry c).parent = parent)
        (hrest : t.getcwdLoop room (names.length + (n + 1 + 1)) d buf =
          match names.reverse.foldlM (putName room) buf with
          | .error r => some r
          | .ok buf => t.getcwdLoop room (n + 1 + 1) c buf) :
        t.getcwdLoop room ((name :: names).length + (n + 1)) d buf =
          match (name :: names).reverse.foldlM (putName room) buf with
          | .error r => some r
          | .ok buf => t.getcwdLoop room (n + 1) parent buf := by
      rw [List.length_cons, Nat.add_assoc, Nat.add_comm 1, hrest, List.reverse_cons, List.foldlM_append]
      cases names.reverse.foldlM (putName room) buf with
      | error r => rfl
      | ok text =>
        show t.getcwdLoop room (n + 1 + 1) c text = _
        rw [State.getcwdLoop, if_neg hc, hname, hup]
        show _ = match (putName room text name >>= fun text => pure text) with
          | .error r => some r
          | .ok buf => t.getcwdLoop room (n + 1) parent buf
        cases putName room text name <;> rfl
    rw [State.walkLoop] at hwalk
    split at hwalk
    · cases hwalk
    rename_i hdir
    rw [if_neg hproper.2.1] at hwalk
    have hclean : ∀ n ∈ names, n.length < MAX_LFN ∧ n ≠ dot := fun n hm =>
      ⟨(hn' n hm).2, fun hd => (hn' n hm).1.1 (.inr hd)⟩
    split at hwalk
    · rename_i hroot
      cases hmp : s.findMp name with
      | none =>
        rw [hmp] at hwalk
        cases hwalk
      | some mp =>
        rw [hmp] at hwalk
        have hwalk : State.walkLoop true s mp.dentry names = (t, .ok d) := hwalk
        have hmem := List.mem_of_find?_eq_some hmp
        obtain ⟨hlive, -, hup, hpos, hne⟩ := h.linked.mounts mp hmem
        have hgrown : Grown s t := by
          have hw := walkLoop_walked true names h ⟨hlive, hpos⟩ hclean
          rw [hwalk] at hw
          exact hw.grown
        have hname : mp.name = name := by simpa using List.find?_some hmp
        refine climb mp.dentry hne ?_ ?_ (ih h hm ⟨hlive, hpos⟩ hn' hwalk (n + 1) buf)
        · rw [hgrown.name _ hlive, hm mp hmem, hname]
        · exact (hgrown.up _ hlive).trans (hup.trans hroot.symm)
    · rename_i hroot
      have hpd : s.ValidDir parent := ⟨hp, .inl (by simpa using hdir), hroot⟩
      obtain ⟨he, hg₁, hchild⟩ := walkChild_edits h hpd hshort ⟨fun hd => hproper.1 (.inr hd), hproper.2.1⟩
      rcases hso : s.walkChild parent name with ⟨s₁, o⟩
      rw [hso] at he hg₁ hchild hwalk
      cases o with
      | error e => cases hwalk
      | ok c =>
        have hc := hchild c rfl
        have h₁ := he.sound h
        have hpos : s₁.isPositive c = true := by
          by_contra hneg
          dsimp only at hwalk
          rw [if_neg hneg, if_neg (fun hlast => Bool.noConfusion hlast.2)] at hwalk
          cases hwalk
        have hwalk : State.walkLoop true s₁ c names = (t, .ok d) := by
          dsimp only at hwalk
          rwa [if_pos hpos] at hwalk
        have hgrown : Grown s₁ t := by
          have hw := walkLoop_walked true names h₁ ⟨hc.live, hpos⟩ hclean
          rw [hwalk] at hw
          exact hw.grown
        obtain ⟨-, hup, -, hinner⟩ := h₁.linked.child parent (hg₁.live parent hp.live) c hc.mem
        have hne : c ≠ root := fun heq => hinner (heq ▸ h₁.linked.root_mp)
        refine climb c hne ((hgrown.name _ hc.live).trans hc.name_eq) ((hgrown.up _ hc.live).trans hup) ?_
        exact ih h₁ (he.changes.mountNames h hm) ⟨hc.live, hpos⟩ hn' hwalk (n + 1) buf

theorem getcwdLoop_mono {m : Nat} (h : s.getcwdLoop room n d buf = some r) (hle : n ≤ m) :
    s.getcwdLoop room m d buf = some r := by
  induction n generalizing m d buf with
  | zero => cases h
  | succ n ih =>
    obtain ⟨m, rfl⟩ : ∃ k, m = k + 1 := ⟨m - 1, by omega⟩
    rw [State.getcwdLoop] at h ⊢
    split
    · rename_i hroot
      rwa [if_pos hroot] at h
    · rename_i hroot
      rw [if_neg hroot] at h
      cases hput : putName room buf (s.dentry d).name with
      | error r' => rwa [hput] at h
      | ok text =>
        rw [hput] at h
        exact ih h (by omega)

theorem getcwdLoop_isSome (room : Nat) (hup : s.up^[n] d = root) (buf : List Byte) :
    ∃ r, s.getcwdLoop room (n + 1) d buf = some r := by
  induction n generalizing d buf with
  | zero =>
    rw [Function.iterate_zero_apply] at hup
    exact ⟨_, by rw [State.getcwdLoop, if_pos hup]⟩
  | succ n ih =>
    rw [State.getcwdLoop]
    split
    · exact ⟨_, rfl⟩
    · cases putName room buf (s.dentry d).name with
      | error r => exact ⟨r, rfl⟩
      | ok text => exact ih hup text

theorem getcwdLoop_fresh (h : Linked s) (hd : s.live d = true)
    (hr : s.getcwdLoop room n d buf = some r) : s.getcwdLoop room (s.fresh + 1) d buf = some r := by
  have hlt : ∀ k, s.up^[k] d < s.fresh := fun k => h.bound _ (h.below_live hd ⟨k, rfl⟩)
  obtain ⟨r', hr'⟩ := getcwdLoop_isSome room ((h.climbs d hd).bounded h.root_up hlt) buf
  have hmax := getcwdLoop_mono hr (Nat.le_max_left n (s.fresh + 1))
  rw [getcwdLoop_mono hr' (Nat.le_max_right n (s.fresh + 1))] at hmax
  rw [hr', hmax]

end Loop

section Buffer
variable {names : List Name} {p : Nat}

/-- `vfs_getcwd` gives a path to the working directory or fails with `-ERANGE`, and writes no more than `size` bytes. -/
def GetcwdOk (s : State Φ) (p : Nat) (size : Int) : Prop :=
  ∃ r, s.vfsGetcwd p size = some r ∧ r.most ≤ size.toNat ∧
    (r.status = -ERANGE ∨ r.status = 0 ∧ (s.vfsWalkPath p (vfsNewPath r.text) true).2 = .ok (s.proc p).cwd)

/-- The room is compared with each name and not with what is left of it: the names that fit one by one also have to
    fit together. -/
theorem getcwd_iff (h : Sound s) (hm : s.MountNames) (hn : ∀ n ∈ names, Proper n ∧ n.length < MAX_LFN)
    (hwalk : s.vfsWalkPath p ⟨true, names⟩ true = (s, .ok (s.proc p).cwd)) (size : Int) :
    GetcwdOk s p size ↔ size ≠ 0 ∧ (2 ≤ size → cwdLength (size - 2).toNat names.reverse + 1 ≤ size.toNat) := by
  have hwalk' : State.walkLoop true s root names = (s, .ok (s.proc p).cwd) := hwalk
  by_cases hzero : size = 0
  · refine iff_of_false ?_ fun hr => hr.1 hzero
    rintro ⟨r, hr, -, hst⟩
    rw [State.vfsGetcwd, if_pos hzero] at hr
    cases hr
    exact hst.elim (fun heq => absurd heq (by decide : -EINVAL ≠ -ERANGE)) fun heq =>
      absurd heq.1 (by decide : -EINVAL ≠ 0)
  by_cases hsmall : size < 2
  · have hget : s.vfsGetcwd p size = some ⟨-ERANGE, [], 0⟩ := by rw [State.vfsGetcwd, if_neg hzero, if_pos hsmall]
    exact iff_of_true ⟨_, hget, Nat.zero_le _, .inl rfl⟩ ⟨hzero, fun hle => absurd hsmall (Int.not_lt.mpr hle)⟩
  have hroot : s.Valid root := ⟨h.linked.root_live, h.linked.root_positive⟩
  have hloop := getcwdLoop_walk (size - 2).toNat h hm hroot hn hwalk' 0 []
  have hiff : (size ≠ 0 ∧ (2 ≤ size → cwdLength (size - 2).toNat names.reverse + 1 ≤ size.toNat)) ↔
      cwdLength (size - 2).toNat names.reverse + 1 ≤ size.toNat :=
    ⟨fun hr => hr.2 (by omega), fun hr => ⟨hzero, fun _ => hr⟩⟩
  rw [hiff, GetcwdOk, State.vfsGetcwd, if_neg hzero, if_neg hsmall]
  have hlive : s.live (s.proc p).cwd = true := by
    have hw := walkLoop_walked true names h hroot fun n hm => ⟨(hn n hm).2, fun hd => (hn n hm).1.1 (.inr hd)⟩
    rw [hwalk'] at hw
    exact (hw.found _ rfl).live
  have hlast : ∀ text, s.getcwdLoop (size - 2).toNat (0 + 1) root text = some ⟨0, text.reverse, text.length + 1⟩ :=
    fun text => by rw [State.getcwdLoop, if_pos rfl]
  by_cases hcwd : (s.proc p).cwd = root
  · have hstart : s.getcwdLoop (size - 2).toNat (names.length + (0 + 1)) (s.proc p).cwd [] = some ⟨0, [], 1⟩ := by
      rw [← Nat.add_assoc, State.getcwdLoop, if_pos hcwd]
      rfl
    rw [if_pos hcwd]
    refine iff_of_true ⟨⟨0, [slash], 2⟩, rfl, by dsimp only; omega, .inr ⟨rfl, ?_⟩⟩ ?_
    · have hnew : vfsNewPath [slash] = ⟨true, []⟩ := by decide
      rw [hnew, hcwd]
      rfl
    · rcases foldlM_putName names.reverse [] with ⟨text, heq, -, hlen⟩ | ⟨r, heq, hst, -⟩
      · rw [heq, hstart] at hloop
        have hmost := congrArg Cwd.most (Option.some.inj (hloop.trans (hlast text)))
        have hmost : 1 = text.length + 1 := hmost
        rw [List.length_nil] at hlen
        omega
      · rw [heq, hstart] at hloop
        have hstatus := congrArg Cwd.status (Option.some.inj hloop)
        rw [hst] at hstatus
        exact absurd hstatus (by decide)
  rw [if_neg hcwd]
  rcases foldlM_putName names.reverse [] with ⟨text, heq, htext, hlen⟩ | ⟨r, heq, hst, hmost⟩
  · rw [heq] at hloop
    rw [getcwdLoop_fresh h.linked hlive (hloop.trans (hlast text))]
    have hnames : names ≠ [] := by
      rintro rfl
      exact hcwd (Except.ok.inj (congrArg Prod.snd hwalk')).symm
    have hrev : text.reverse = pathText names := by
      rw [htext, pathText, if_neg hnames]
      simp
    have hpath : (s.vfsWalkPath p (vfsNewPath text.reverse) true).2 = .ok (s.proc p).cwd := by
      rw [hrev, vfsNewPath_pathText fun n hm => (hn n hm).1, hwalk]
    rw [List.length_nil, Nat.zero_add] at hlen
    rw [← hlen]
    constructor
    · rintro ⟨r, hr, hmost, -⟩
      cases hr
      exact hmost
    · exact fun hmost => ⟨_, rfl, hmost, .inr ⟨rfl, hpath⟩⟩
  · rw [heq] at hloop
    rw [getcwdLoop_fresh h.linked hlive hloop]
    rw [List.length_nil, Nat.zero_add] at hmost
    constructor
    · rintro ⟨r', hr, hle, -⟩
      cases hr
      omega
    · exact fun hle => ⟨r, rfl, by omega, .inl hst⟩

end Buffer

theorem mountNames_along {calls : List Call} (h : Along State.step State.Plain s calls) (hs : Sound s)
    (hm : s.MountNames) : Sound (calls.foldl State.step s) ∧ (calls.foldl State.step s).MountNames :=
  h.invariant (I := fun s => Sound s ∧ s.MountNames) (fun _ _ hi hc => ⟨step_sound hi.1 hc,
    (step_changes hi.1 hc).mountNames hi.1 hi.2⟩) ⟨hs, hm⟩

def inA : State Ext2.State := (mountCalls ++ [Call.chdir 0 pathA]).foldl State.step dirInit

theorem getcwd_five : GetcwdOk inA 0 5 := by
  have hplain : Along State.step State.Plain dirInit (mountCalls ++ [Call.chdir 0 pathA]) :=
    ⟨trivial, nofun, (by decide : pathA.Clean), trivial⟩
  obtain ⟨hs, hm⟩ := mountNames_along hplain (vfsInit_sound _ _ _ _ _) nofun
  have hwalk : inA.vfsWalkPath 0 ⟨true, [mountName, [0x61]]⟩ true = (inA, .ok (inA.proc 0).cwd) := by
    have hmp : inA.findMp mountName = some ⟨mountName, 1, 1⟩ := by decide +kernel
    have hlook : inA.dcacheLookup 1 [0x61] = some 2 := by decide +kernel
    have hcwd : (inA.proc 0).cwd = 2 := by decide +kernel
    rw [hcwd]
    show State.walkLoop true inA root [mountName, [0x61]] = _
    rw [State.walkLoop, if_neg (by decide +kernel), if_neg (by decide), if_pos rfl, hmp]
    show State.walkLoop true inA 1 [[0x61]] = _
    rw [State.walkLoop, if_neg (by decide +kernel), if_neg (by decide), if_neg (by decide), State.walkChild, hlook]
    dsimp only
    rw [if_pos (by decide +kernel)]
    rfl
  exact (getcwd_iff hs hm (by decide) hwalk 5).mpr (by decide)

/-- In a buffer of three bytes each name fits alone, and two bytes are written behind the buffer. -/
theorem getcwd_past_end : inA.vfsGetcwd 0 3 = some ⟨0, pathText [mountName, [0x61]], 5⟩ ∧ ¬GetcwdOk inA 0 3 := by
  have hget : inA.vfsGetcwd 0 3 = some ⟨0, pathText [mountName, [0x61]], 5⟩ := by decide +kernel
  refine ⟨hget, ?_⟩
  rintro ⟨r, hr, hmost, -⟩
  rw [hget] at hr
  cases hr
  exact absurd hmost (by decide)

end Novino.Vfs
