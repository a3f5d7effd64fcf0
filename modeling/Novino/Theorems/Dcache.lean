import Novino.Vfs.Files

/-! What the functions of the dentry cache do to the dentries, and what they leave alone. -/

namespace Novino.Vfs
open Ext2 (Name)

variable {Φ : Type} {s s' s'' : State Φ} {parent item d c : Nat} {name : Name} {ip : Option Inode}

/-- The two states differ in dentries, in the store and in counters of the heap only. -/
structure Apart (s s' : State Φ) : Prop where
  table : s'.table = s.table
  fsl : s'.fsl = s.fsl
  mpl : s'.mpl = s.mpl
  mpNumfd : s'.mpNumfd = s.mpNumfd
  file : s'.file = s.file
  files : s'.files = s.files
  proc : s'.proc = s.proc
  procs : s'.procs = s.procs
  mem : s'.mem = s.mem
  now : s'.now = s.now

theorem Apart.refl (s : State Φ) : Apart s s := ⟨rfl, rfl, rfl, rfl, rfl, rfl, rfl, rfl, rfl, rfl⟩

theorem Apart.trans (h : Apart s s') (h' : Apart s' s'') : Apart s s'' :=
  ⟨h'.table.trans h.table, h'.fsl.trans h.fsl, h'.mpl.trans h.mpl, h'.mpNumfd.trans h.mpNumfd,
    h'.file.trans h.file, h'.files.trans h.files, h'.proc.trans h.proc, h'.procs.trans h.procs, h'.mem.trans h.mem,
    h'.now.trans h.now⟩

theorem modify_same {α : Type} (s : State Φ) (d : Nat) (g : Dentry → Dentry) (f : Dentry → α)
    (hf : ∀ x, f (g x) = f x) (e : Nat) : f ((s.modify d g).dentry e) = f (s.dentry e) := by
  rw [State.modify_dentry]
  split
  · exact hf _
  · rfl

theorem dcacheLookup_eq_some (h : s.dcacheLookup parent name = some c) :
    c ∈ (s.dentry parent).children ∧ (s.dentry c).name = name := by
  have hp := List.find?_some h
  simp only [Bool.and_eq_true, beq_iff_eq] at hp
  exact ⟨List.mem_of_find?_eq_some h, hp.2⟩

theorem dcacheLookup_eq_none :
    s.dcacheLookup parent name = none ↔ ∀ c ∈ (s.dentry parent).children, (s.dentry c).name ≠ name := by
  simp only [State.dcacheLookup, List.find?_eq_none, Bool.and_eq_true, beq_iff_eq, not_and]
  exact forall₂_congr fun c _ => ⟨fun h heq => h (by rw [heq]) heq, fun h _ => h⟩

theorem dcacheLookup_isSome :
    (s.dcacheLookup parent name).isSome ↔ ∃ c ∈ (s.dentry parent).children, (s.dentry c).name = name := by
  rw [← Option.ne_none_iff_isSome, ne_eq, dcacheLookup_eq_none]
  push Not
  rfl

@[simp] theorem Dentry.count_eq (d : Dentry) (p : Bool) : d.count p =
    { d with positive := d.positive + p.toNat, negative := d.negative + (!p).toNat } := by
  cases p <;> rfl

@[simp] theorem Dentry.uncount_eq (d : Dentry) (p : Bool) : d.uncount p =
    { d with positive := if p then dec d.positive else d.positive,
             negative := if p then d.negative else dec d.negative } := by
  cases p <;> rfl

/-! ### The entries `.` and `..` -/

theorem putDirent_none (rd : Rd) (hrd : rd.parent = none) (f : Nat) (name : Name) (ip : Inode) :
    (2 ≤ (s.file f).seek ∧ s.putDirent f rd name ip = (s, rd, true)) ∨
    (∃ rd', rd'.parent = none ∧ rd'.status = rd'.pos ∧
      s.putDirent f rd name ip = (s.modifyFile f fun x => { x with seek := x.seek + 1 }, rd', true)) ∨
    ∃ rd', s.putDirent f rd name ip = (s, rd', false) := by
  unfold State.putDirent
  split
  · rename_i hskip
    exact .inl ⟨hskip.1, rfl⟩
  right
  dsimp only
  split
  · left
    rw [hrd]
    exact ⟨_, rfl, rfl, rfl⟩
  · exact .inr ⟨_, rfl⟩

def State.dots (s : State Φ) (f : Nat) : List (Name × Inode) :=
  [(dot, s.inode (s.file f).dentry), (dotdot, s.inode (s.dentry (s.file f).dentry).parent)].drop (s.file f).seek

theorem State.dots_length (s : State Φ) (f : Nat) : (s.dots f).length = 2 - (s.file f).seek := List.length_drop

theorem putDots_eq {f : Nat} {rd : Rd} (hrd : rd.parent = none) : s.putDots f rd =
    ((s.putAll f rd (s.dots f)).1, (s.putAll f rd (s.dots f)).2.1,
      (s.putAll f rd (s.dots f)).2.2 == (s.dots f).length) := by
  -- the second entry, in a state that only differs in the position
  have hlast (u : State Φ) (rd : Rd) (ip : Inode) (h1 : (u.file f).seek = 1) :
      (if (u.file f).seek = 1 then u.putDirent f rd dotdot ip else (u, rd, true)) =
        ((u.putAll f rd [(dotdot, ip)]).1, (u.putAll f rd [(dotdot, ip)]).2.1,
          (u.putAll f rd [(dotdot, ip)]).2.2 == 1) := by
    rw [if_pos h1]
    rcases hr : u.putDirent f rd dotdot ip with ⟨v, rd', _ | _⟩ <;> simp [State.putAll, hr]
  rcases hk : (s.file f).seek with _ | _ | k
  · rcases putDirent_none (s := s) rd hrd f dot (s.inode (s.file f).dentry) with ⟨hle, -⟩ | ⟨rd', -, -, hr⟩ | ⟨rd', hr⟩
    · omega
    · simp only [State.putDots, State.dots, hk, hr, List.drop_zero]
      rw [State.putAll, hr]
      refine (hlast _ rd' (s.inode (s.dentry (s.file f).dentry).parent) (by simp [State.modifyFile, hk])).trans ?_
      simp
    · simp [State.putDots, State.dots, State.putAll, hk, hr]
  · simpa [State.putDots, State.dots, hk] using hlast s rd _ hk
  · simp [State.putDots, State.dots, hk, State.putAll]

theorem setName_short (d : Dentry) (h : name.length < MAX_LFN) : d.setName name = { d with name } := if_pos h

@[simp] theorem setName_name (d : Dentry) (name : Name) : (d.setName name).name = name := by
  unfold Dentry.setName
  split <;> rfl

@[simp] theorem setName_children (d : Dentry) (name : Name) : (d.setName name).children = d.children := by
  unfold Dentry.setName
  split <;> rfl

def State.newDentry (s : State Φ) (parent : Nat) (name : Name) (ip : Option Inode) : Dentry :=
  { Dentry.zero.setName name with
    mp := (s.dentry parent).mp
    parent
    inode := ip.map fun ip => { ip with ops := (s.inode parent).ops, data := (s.inode parent).data } }

structure Appended (s : State Φ) (parent : Nat) (name : Name) (ip : Option Inode) (s' : State Φ) : Prop
    extends Apart s s' where
  store : s'.store = s.store
  live : s'.live = Function.update s.live s.fresh true
  fresh : s'.fresh = s.fresh + 1
  item : s'.dentry s.fresh = s.newDentry parent name ip
  folder : s'.dentry parent =
    { (s.dentry parent).count ip.isSome with children := s.fresh :: (s.dentry parent).children }
  other : ∀ d, d ≠ s.fresh → d ≠ parent → s'.dentry d = s.dentry d

theorem dcacheAppend_cases (hp : parent ≠ s.fresh) (name : Name) (ip : Option Inode) :
    (s.mem s.mems = false ∧ s.dcacheAppend parent name ip = ({ s with mems := s.mems + 1, fault := true }, none)) ∨
    ∃ s', s.mem s.mems = true ∧ s.dcacheAppend parent name ip = (s', some s.fresh) ∧ Appended s parent name ip s' := by
  unfold State.dcacheAppend State.alloc
  cases hm : s.mem s.mems with
  | false => exact .inl ⟨rfl, rfl⟩
  | true =>
    refine .inr ⟨_, rfl, rfl, ⟨rfl, rfl, rfl, rfl, rfl, rfl, rfl, rfl, rfl, rfl⟩, rfl, rfl, rfl, ?_, ?_,
      fun d hd hd' => ?_⟩
    · simp [State.dentryLink, State.modify, State.newDentry, State.inode, hp.symm, hp]
    · cases ip <;> simp [State.dentryLink, State.modify, State.isPositive, Dentry.isPositive, Dentry.count, hp]
    · simp [State.dentryLink, State.modify, hd, hd']

theorem Appended.inode_eq (h : Appended s parent name ip s') (hd : d ≠ s.fresh) : s'.inode d = s.inode d := by
  by_cases hdp : d = parent
  · subst hdp
    rw [State.inode, h.folder]
    unfold Dentry.count
    split <;> rfl
  · rw [State.inode, h.other d hd hdp, State.inode]

/-- A dentry gets or loses its inode, and its parent counts it among the others. -/
structure Flipped (s : State Φ) (dp : Nat) (ip : Option Inode) (s' : State Φ) : Prop extends Apart s s' where
  live : s'.live = s.live
  fresh : s'.fresh = s.fresh
  item : s'.dentry dp = { s.dentry dp with inode := ip }
  folder : s'.dentry (s.dentry dp).parent = ((s.dentry (s.dentry dp).parent).uncount (!ip.isSome)).count ip.isSome
  other : ∀ d, d ≠ dp → d ≠ (s.dentry dp).parent → s'.dentry d = s.dentry d

theorem made_flipped (hneg : s.isPositive item = false) (hne : (s.dentry item).parent ≠ item) (φ : Φ) (ip : Inode) :
    Flipped s item (some ip)
      ({ s.dcacheMarkPositive item with store := φ }.modify item fun d => { d with inode := some ip }) := by
  unfold State.dcacheMarkPositive
  rw [if_neg (by simp [hneg])]
  refine ⟨⟨rfl, rfl, rfl, rfl, rfl, rfl, rfl, rfl, rfl, rfl⟩, rfl, rfl, ?_, ?_, fun d hd hd' => ?_⟩
  · simp [State.modify, hne.symm]
  · simp [State.modify, hne, Dentry.count, Dentry.uncount]
  · simp [State.modify, hd, hd']

theorem made_undone (hneg : s.isPositive item = false) (hne : (s.dentry item).parent ≠ item)
    (hcount : (s.dentry (s.dentry item).parent).negative ≠ 0) (φ : Φ) (ip : Inode) :
    ({ s.dcacheMarkPositive item with store := φ }.modify item fun d => { d with inode := some ip }).dcacheMarkNegative
      item = { s with store := φ } := by
  have hnone : (s.dentry item).inode = none := by simpa [State.isPositive, Dentry.isPositive] using hneg
  unfold State.dcacheMarkPositive
  rw [if_neg (by simp [hneg])]
  have hpos : ∀ t : State Φ, (t.modify item fun d => { d with inode := some ip }).isPositive item = true := fun t => by
    simp [State.modify, State.isPositive, Dentry.isPositive]
  unfold State.dcacheMarkNegative
  rw [if_pos (hpos _)]
  have hd : ∀ t : State Φ,
    t = { s with store := φ, dentry := t.dentry } → t.dentry = s.dentry → t = { s with store := φ } :=
    fun t ht hd => by rw [ht, hd]
  refine hd _ rfl ?_
  funext d
  by_cases hdi : d = item
  · subst hdi
    simp [State.modify, hne.symm, ← hnone]
  · by_cases hdp : d = (s.dentry item).parent
    · subst hdp
      simp [State.modify, hne, hne.symm, dec_add_one hcount]
    · simp [State.modify, hdi, hdp, hne.symm]

theorem dropped_flipped (hpos : s.isPositive item = true) (hne : (s.dentry item).parent ≠ item) (φ : Φ) :
    Flipped s item none (State.dcacheMarkNegative { s with store := φ } item) := by
  unfold State.dcacheMarkNegative
  rw [if_pos (show State.isPositive { s with store := φ } item = true from hpos)]
  refine ⟨⟨rfl, rfl, rfl, rfl, rfl, rfl, rfl, rfl, rfl, rfl⟩, rfl, rfl, ?_, ?_, fun d hd hd' => ?_⟩
  · simp [State.modify, hne.symm]
  · simp [State.modify, hne, Dentry.count, Dentry.uncount]
  · simp [State.modify, hd, hd']

/-- A dentry takes the place of another one, which is freed. -/
structure Renamed (s : State Φ) (src dst : Nat) (ip : Inode) (s' : State Φ) : Prop extends Apart s s' where
  live : s'.live = Function.update s.live dst false
  fresh : s'.fresh = s.fresh
  item : s'.dentry src = { s.dentry src with
    name := (s.dentry dst).name, parent := (s.dentry dst).parent, inode := some ip }
  folder : ∀ d ≠ src, s'.dentry d =
    let x := if d = (s.dentry src).parent then
      { (s.dentry d).uncount true with children := (s.dentry d).children.erase src } else s.dentry d
    if d = (s.dentry dst).parent then
      { (x.count true).uncount (s.isPositive dst) with children := (src :: x.children).erase dst } else x

theorem dentryUnlink_dentry (s : State Φ) (item d : Nat) : (s.dentryUnlink item).dentry d =
    if d = (s.dentry item).parent then
      { (s.dentry d).uncount (s.isPositive item) with children := (s.dentry d).children.erase item }
    else s.dentry d := by
  unfold State.dentryUnlink
  rw [State.modify_dentry]

theorem dentryLink_dentry (h : parent ≠ item) (d : Nat) : (s.dentryLink parent item).dentry d =
    if d = item then { s.dentry d with parent }
    else if d = parent then { (s.dentry d).count (s.isPositive item) with children := item :: (s.dentry d).children }
    else s.dentry d := by
  unfold State.dentryLink
  rw [State.modify_dentry, State.modify_dentry]
  by_cases hdi : d = item
  · subst hdi
    rw [if_neg h.symm, if_pos rfl, if_pos rfl]
  · rw [if_neg hdi, if_neg hdi]

theorem dcacheMove_dentry (hp : (s.dentry item).parent ≠ item) (hq : parent ≠ item) (hname : name.length < MAX_LFN)
    (d : Nat) : (s.dcacheMove parent item name).dentry d =
    if d = item then { s.dentry d with name, parent }
    else
      let x := if d = (s.dentry item).parent then
        { (s.dentry d).uncount (s.isPositive item) with children := (s.dentry d).children.erase item } else s.dentry d
      if d = parent then { x.count (s.isPositive item) with children := item :: x.children } else x := by
  obtain ⟨u, hu⟩ : ∃ u : State Φ, u = { (s.dentryUnlink item).modify item (·.setName name) with
    oob := (s.dentryUnlink item).oob || decide (MAX_LFN ≤ name.length) } := ⟨_, rfl⟩
  have hui : u.dentry item = { s.dentry item with name } := by
    rw [hu]
    show ((s.dentryUnlink item).modify item (·.setName name)).dentry item = _
    rw [State.modify_dentry, if_pos rfl, dentryUnlink_dentry, if_neg hp.symm, setName_short _ hname]
  have hud : ∀ d ≠ item, u.dentry d = (s.dentryUnlink item).dentry d := fun d hd => by
    rw [hu]
    exact Function.update_of_ne hd _ _
  have hupos : u.isPositive item = s.isPositive item := by rw [State.isPositive, hui, State.isPositive]; rfl
  show (State.dcacheMove s parent item name).dentry d = _
  unfold State.dcacheMove
  dsimp only
  rw [← hu, dentryLink_dentry hq, hupos]
  by_cases hd : d = item
  · subst hd
    rw [if_pos rfl, if_pos rfl, hui]
  · rw [if_neg hd, if_neg hd, hud d hd, dentryUnlink_dentry]

theorem moved_renamed {src dst : Nat} (hne : src ≠ dst) (hp : (s.dentry src).parent ≠ src)
    (hq : (s.dentry dst).parent ≠ src) (hpd : (s.dentry src).parent ≠ dst) (hqd : (s.dentry dst).parent ≠ dst)
    (hname : (s.dentry dst).name.length < MAX_LFN) (φ : Φ) (ip : Inode) :
    let t := { s with store := φ }.modify src fun d => { d with inode := some ip }
    Renamed s src dst ip ((t.dcacheMove (t.dentry dst).parent src (t.dentry dst).name).dcacheDelete dst) := by
  intro t
  have hto : ∀ d ≠ src, t.dentry d = s.dentry d := fun d hd => Function.update_of_ne hd _ _
  have hts : t.dentry src = { s.dentry src with inode := some ip } := Function.update_self _ _ _
  have hpos : t.isPositive src = true := by rw [State.isPositive, hts]; rfl
  have htp : (t.dentry src).parent = (s.dentry src).parent := by rw [hts]
  rw [hto dst hne.symm]
  obtain ⟨u, hu⟩ : ∃ u, u = t.dcacheMove (s.dentry dst).parent src (s.dentry dst).name := ⟨_, rfl⟩
  have hud : ∀ d, u.dentry d = _ := fun d => by rw [hu, dcacheMove_dentry (by rw [htp]; exact hp) hq hname d]
  have hdst : u.dentry dst = s.dentry dst := by
    rw [hud, if_neg hne.symm, htp]
    dsimp only
    rw [if_neg hqd.symm, if_neg hpd.symm, hto dst hne.symm]
  have hdpos : u.isPositive dst = s.isPositive dst := by rw [State.isPositive, hdst, State.isPositive]
  rw [← hu]
  have happ : ∀ d, (u.dcacheDelete dst).dentry d = (u.dentryUnlink dst).dentry d := fun _ => rfl
  refine ⟨⟨?_, ?_, ?_, ?_, ?_, ?_, ?_, ?_, ?_, ?_⟩, ?_, ?_, ?_, fun d hd => ?_⟩
  any_goals (rw [hu]; rfl)
  · rw [happ, dentryUnlink_dentry, hdst, if_neg hq.symm, hud, if_pos rfl, hts]
  · rw [happ, dentryUnlink_dentry, hdst, hdpos, hud, if_neg hd, htp, hto d hd, hpos]
    dsimp only
    split
    · cases s.isPositive dst <;> rfl
    · rfl

end Novino.Vfs
