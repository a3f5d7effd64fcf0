import Novino.Theorems.Histories

/-! Lengths of the names in the cache of directory entries. Only the names of mounts are checked. -/

namespace Novino.Vfs
open Steps
open Ext2 (Name ENOENT)

variable {Φ : Type} {s : State Φ}

def Short (s : State Φ) : Prop := ∀ d, (s.dentry d).name.length < MAX_LFN

section Cache
variable {d item parent p : Nat} {name : Name}

theorem Dentry.setName_name (x : Dentry) (name : Name) : (x.setName name).name = name := by
  unfold Dentry.setName
  split <;> rfl

section
variable (h : Short s)
include h

theorem Short.stored (φ : Φ) : Short { s with store := φ } := h

theorem Short.modify (d : Nat) {f : Dentry → Dentry} (hf : ∀ x, (f x).name = x.name) : Short (s.modify d f) := by
  intro e
  rw [State.modify_dentry]
  split
  · rw [hf]
    exact h e
  · exact h e

theorem Short.setInode (φ : Φ) (d : Nat) (ip : Inode) :
    Short ({ s with store := φ }.modify d fun x => { x with inode := some ip }) := (h.stored φ).modify d fun _ => rfl

theorem Short.unlink (item : Nat) : Short (s.dentryUnlink item) :=
  h.modify _ fun x => by simp

theorem Short.delete (item : Nat) : Short (s.dcacheDelete item) := h.unlink item

theorem Short.link (parent item : Nat) : Short (s.dentryLink parent item) :=
  (h.modify item (f := fun d => { d with parent }) fun _ => rfl).modify parent fun x => by simp

theorem Short.append (parent : Nat) (hn : name.length < MAX_LFN) (ip : Option Inode) :
    Short (s.dcacheAppend parent name ip).1 := by
  unfold State.dcacheAppend State.alloc
  cases s.mem s.mems with
  | false => exact h
  | true =>
    refine Short.link (fun d => ?_) parent s.fresh
    show (Function.update s.dentry s.fresh _ d).name.length < MAX_LFN
    rw [Function.update_apply]
    split
    · show (Dentry.zero.setName name).name.length < MAX_LFN
      rwa [Dentry.setName_name]
    · exact h d

theorem Short.move (parent item : Nat) (hn : name.length < MAX_LFN) : Short (s.dcacheMove parent item name) := by
  refine Short.link (fun d => ?_) parent item
  show (((s.dentryUnlink item).modify item (·.setName name)).dentry d).name.length < MAX_LFN
  rw [State.modify_dentry]
  split
  · rwa [Dentry.setName_name]
  · exact h.unlink item d

theorem Short.markPositive (item : Nat) : Short (s.dcacheMarkPositive item) := by
  unfold State.dcacheMarkPositive
  split
  · exact h
  · exact (h.modify _ (f := fun d => { d with negative := dec d.negative, positive := d.positive + 1 }) fun _ =>
      rfl).modify item fun _ => rfl

theorem Short.markNegative (item : Nat) : Short (s.dcacheMarkNegative item) := by
  unfold State.dcacheMarkNegative
  split
  · exact (h.modify _ (f := fun d => { d with negative := d.negative + 1, positive := dec d.positive }) fun _ =>
      rfl).modify item fun _ => rfl
  · exact h

theorem Short.opened (d : Nat) : Short (s.dentryOpen d) :=
  h.modify d (f := fun x => { x with numfd := x.numfd + 1 }) fun _ => rfl

theorem Short.closed (d : Nat) : Short (s.dentryClose d) :=
  h.modify d (f := fun x => { x with numfd := dec x.numfd }) fun _ => rfl

end

end Cache

section Walks
variable {parent p : Nat} {name : Name}

theorem Short.walkChild (h : Short s) (parent : Nat) (hn : name.length < MAX_LFN) :
    Short (s.walkChild parent name).1 := by
  unfold State.walkChild
  cases s.dcacheLookup parent name with
  | some child => exact h
  | none =>
    rcases hr : (s.ops parent).lookup s.store (s.inode parent) name with ⟨φ, r⟩
    have append (ip : Option Inode) : ∃ t o, { s with store := φ }.dcacheAppend parent name ip = (t, o) ∧ Short t :=
      ⟨_, _, rfl, (h.stored φ).append parent hn ip⟩
    dsimp only
    cases r with
    | ok ip =>
      obtain ⟨t, o, hto, ht⟩ := append (some ip)
      dsimp only
      rw [hto]
      cases o <;> exact ht
    | error e =>
      obtain ⟨t, o, hto, ht⟩ := append none
      dsimp only
      split
      · rw [hto]
        cases o <;> exact ht
      · exact h

theorem Short.walkLoop (mustexist : Bool) (h : Short s) (parent : Nat) {names : List Name}
    (hn : ∀ n ∈ names, n.length < MAX_LFN) : Short (State.walkLoop mustexist s parent names).1 := by
  induction names generalizing s parent with
  | nil => exact h
  | cons name names ih =>
    have hn' := fun n hm => hn n (List.mem_cons_of_mem _ hm)
    rw [State.walkLoop]
    split
    · exact h
    split
    · exact ih h _ hn'
    split
    · split
      · exact h
      · exact ih h _ hn'
    have hc := h.walkChild parent (hn name List.mem_cons_self)
    split
    · rename_i heq
      rw [heq] at hc
      exact hc
    · rename_i heq
      rw [heq] at hc
      split
      · exact ih hc _ hn'
      · split <;> exact hc

def Path.Short (path : Path) : Prop := ∀ n ∈ path.names, n.length < MAX_LFN

instance (path : Path) : Decidable path.Short := inferInstanceAs (Decidable (∀ n ∈ path.names, n.length < MAX_LFN))

theorem Short.walk (h : Short s) (p : Nat) {path : Path} (hn : path.Short) (mustexist : Bool) :
    ∃ t o, s.vfsWalkPath p path mustexist = (t, o) ∧ Short t := ⟨_, _, rfl, h.walkLoop mustexist _ hn⟩

end Walks

section Calls
variable {p id f : Nat} {path : Path}

section
variable (h : Short s)
include h

theorem Short.make (op : Ops Φ → Option (Φ → Inode → Name → Inode → Φ × Int × Inode)) (flags p : Nat)
    (hn : path.Short) (mode : Nat) : Short (s.vfsMake op flags p path mode).1 := by
  unfold State.vfsMake
  obtain ⟨t, o, hto, ht⟩ := h.walk p hn false
  rw [hto]
  cases o with
  | error e => exact ht
  | ok dp =>
    dsimp only
    split
    · exact ht
    split
    · exact ht
    have hi := fun φ => (ht.markPositive dp).setInode φ dp
    split
    · exact (hi _ _).markNegative dp
    · exact hi _ _

theorem Short.drop (op : Ops Φ → Option (Φ → Inode → Name → Inode → Φ × Int)) (dir : Bool) (wrong : Int)
    (p : Nat) (hn : path.Short) : Short (s.vfsDrop op dir wrong p path).1 := by
  unfold State.vfsDrop
  obtain ⟨t, o, hto, ht⟩ := h.walk p hn true
  rw [hto]
  cases o with
  | error e => exact ht
  | ok dp =>
    dsimp only
    split
    · exact ht
    split
    · exact ht
    split
    · exact ht
    split
    · exact (ht.stored _).markNegative dp
    · exact ht

theorem Short.renameEnds (p : Nat) {old new : Path} (hold : old.Short) (hnew : new.Short) :
    ∃ t o, s.renameEnds p old new = (t, o) ∧ Short t := by
  obtain ⟨t, o, hto, ht⟩ := h.walk p hold true
  unfold State.renameEnds
  rw [hto]
  cases o with
  | error e => exact ⟨t, _, rfl, ht⟩
  | ok src =>
    obtain ⟨u, o, huo, hu⟩ := ht.walk p hnew false
    dsimp only
    rw [huo]
    cases o <;> exact ⟨u, _, rfl, hu⟩

theorem Short.rename (p : Nat) {old new : Path} (hold : old.Short) (hnew : new.Short) :
    Short (s.vfsRename p old new).1 := by
  unfold State.vfsRename
  obtain ⟨t, o, hto, ht⟩ := h.renameEnds p hold hnew
  rw [hto]
  cases o with
  | error e => exact ht
  | ok ends =>
    obtain ⟨src, dst⟩ := ends
    dsimp only
    split
    · exact ht
    split
    · exact ht
    have hi := fun φ => ht.setInode φ src
    split
    · exact hi _ _
    · exact ((hi _ _).move _ src (hi _ _ dst)).delete dst

theorem Short.mount (p : Nat) {source : Option Path} (hn : ∀ path, source = some path → path.Short)
    (fstype target : Name) : Short (s.vfsMount p source fstype target).1 := by
  unfold State.vfsMount
  split
  · exact h
  rename_i hname
  have hlen : target.length < MAX_LFN := by
    by_contra hlong
    refine hname ?_
    rw [State.validateName, if_pos]
    · decide
    · exact Nat.le_trans (by decide) (Nat.le_of_not_lt hlong)
  split
  · exact h
  split
  · exact h
  obtain ⟨t, o, hto, ht⟩ : ∃ t o, s.mountSource p source = (t, o) ∧ Short t := by
    cases source with
    | none => exact ⟨s, _, rfl, h⟩
    | some path =>
      obtain ⟨t, o, hto, ht⟩ := h.walk p (hn path rfl) true
      rw [State.mountSource, hto]
      cases o with
      | error e => exact ⟨t, _, rfl, ht⟩
      | ok dp =>
        dsimp only
        split <;> exact ⟨t, _, rfl, ht⟩
  rw [hto]
  cases o with
  | error e => exact ht
  | ok dev =>
    dsimp only [State.alloc]
    split
    · exact ht
    · cases t.mem t.mems with
      | false => exact ht
      | true =>
        intro d
        show (Function.update t.dentry t.fresh _ d).name.length < MAX_LFN
        rw [Function.update_apply]
        split
        · exact hlen
        · exact ht d

theorem Short.umount (target : Name) : Short (s.vfsUmount target).1 := by
  unfold State.vfsUmount
  split
  · exact h
  split
  · exact h
  dsimp only
  split <;> exact h

/-! Opening, reading and writing change files and inodes. -/

theorem Short.modifyFile (f : Nat) (g : File → File) : Short (s.modifyFile f g) := h

theorem Short.fdDelete (p id f : Nat) : Short (s.fdDelete p id f).1 := h

theorem Short.openFile (p dp flags : Nat) : Short (s.openFile p dp flags).1 := by
  have hopen : ∀ t : State Φ, Short t → Short (t.openCall dp).1 := by
    intro t ht
    unfold State.openCall
    split <;> exact ht
  have htrunc : ∀ t : State Φ, Short t → Short (t.truncateCall dp flags).1 := by
    intro t ht
    unfold State.truncateCall
    split
    · exact ht
    split
    · exact ht.setInode _ dp _
    · exact ht
  unfold State.openFile
  rcases s.fdCreate_cases p with ⟨n, hf⟩ | ⟨n, hf⟩ <;> rw [hf]
  · exact h
  dsimp only
  split
  · refine (hopen _ ?_).fdDelete p _ _
    exact h
  split
  · refine (htrunc _ (hopen _ ?_)).fdDelete p _ _
    exact h
  split
  · refine ((htrunc _ (hopen _ ?_)).modifyFile _ _).opened dp
    exact h
  · refine (htrunc _ (hopen _ ?_)).opened dp
    exact h

theorem Short.openPath (p : Nat) (hn : path.Short) (flags : Nat) : Short (s.vfsOpen p path flags).1 := by
  unfold State.vfsOpen
  split
  · exact h
  obtain ⟨t, o, hto, ht⟩ := h.walk p hn false
  rw [hto]
  cases o with
  | error e => exact ht
  | ok dp =>
    dsimp only
    obtain ⟨u, status, hu, hs⟩ : ∃ u status, (if t.isPositive dp then (t, 0)
        else if has flags O_CREATE then t.vfsCreate p path 0o644 else (t, -ENOENT) : State Φ × Int) = (u, status) ∧
        Short u := by
      split
      · exact ⟨t, _, rfl, ht⟩
      split
      · exact ⟨_, _, rfl, ht.make _ _ p hn _⟩
      · exact ⟨t, _, rfl, ht⟩
    rw [hu]
    dsimp only
    split
    · exact hs
    split
    · exact hs
    · exact hs.openFile p dp flags

theorem Short.close (p id : Nat) : Short (s.vfsClose p id).1 := by
  unfold State.vfsClose
  split
  · exact h
  rename_i f _
  have hd : Short (s.fdDelete p id f).1 := h
  split
  · rename_i heq
    rw [heq] at hd
    exact hd
  · rename_i t f heq
    rw [heq] at hd
    dsimp only
    split <;> exact Short.closed hd _

theorem Short.read (p id size : Nat) : Short (s.vfsRead p id size).1 := by
  unfold State.vfsRead
  split
  · exact h
  dsimp only
  repeat' split
  all_goals exact h

theorem Short.write (p id : Nat) (buf : List Byte) : Short (s.vfsWrite p id buf).1 := by
  unfold State.vfsWrite
  split
  · exact h
  dsimp only
  split
  · exact h
  split
  · exact h
  split
  · exact h
  rename_i f _ _ _ _ write _
  obtain ⟨t, ht, hs⟩ : ∃ t, t = (if has (s.file f).flags O_APPEND then
      s.modifyFile f fun x => { x with seek := (s.inode (s.file f).dentry).size } else s) ∧ Short t := by
    refine ⟨_, rfl, ?_⟩
    split <;> exact h
  rw [← ht]
  have hi := fun φ => hs.setInode φ (s.file f).dentry
  split
  · exact hi _ _
  split <;> exact hi _ _

theorem Short.seek (p id : Nat) (offset : Int) (origin : Nat) : Short (s.vfsSeek p id offset origin).1 := by
  unfold State.vfsSeek
  split
  · exact h
  dsimp only
  repeat' split
  all_goals exact h

/-! Listings put their names into the cache. -/

theorem Short.putDirent (f : Nat) (rd : Rd) {name : Name} (ip : Inode) (hn : rd.parent = none ∨ name.length < MAX_LFN) :
    ∃ t rd' more, s.putDirent f rd name ip = (t, rd', more) ∧ Short t ∧ rd'.parent = rd.parent := by
  unfold State.putDirent
  split
  · exact ⟨s, rd, true, rfl, h, rfl⟩
  dsimp only
  split
  · cases hp : rd.parent with
    | none => exact ⟨_, _, _, rfl, h, rfl⟩
    | some parent =>
      have ha : Short ((s.modifyFile f fun x => { x with seek := x.seek + 1 }).dcacheAppend parent name (some ip)).1 :=
        (h.modifyFile f _).append parent (hn.resolve_left (by simp [hp])) (some ip)
      dsimp only
      split
      · exact ⟨_, _, _, rfl, h, rfl⟩
      split <;> rename_i heq <;> rw [heq] at ha <;> exact ⟨_, _, _, rfl, ha, rfl⟩
  · refine ⟨s, _, _, rfl, h, ?_⟩
    split <;> rfl

theorem Short.putAll (f : Nat) (rd : Rd) (entries : List (Name × Inode))
    (hn : rd.parent = none ∨ ∀ e ∈ entries, e.1.length < MAX_LFN) : Short (State.putAll s f rd entries).1 := by
  induction entries generalizing s rd with
  | nil => exact h
  | cons e entries ih =>
    obtain ⟨name, ip⟩ := e
    obtain ⟨t, rd', more, heq, ht, hp⟩ := h.putDirent f rd ip (hn.imp_right fun hall => hall _ List.mem_cons_self)
    rw [State.putAll, heq]
    cases more with
    | false => exact ht
    | true => exact ih ht rd' (hp ▸ hn.imp_right fun hall e he => hall e (List.mem_cons_of_mem _ he))

theorem Short.readEntries (f : Nat) (rd : Rd) (hrd : rd.parent = none)
    (hn : s.ShortEntries (s.file f).dentry) : Short (s.readEntries f rd).1 := by
  unfold State.readEntries
  dsimp only
  split
  · exact h.putAll f rd _ (.inl hrd)
  split
  · exact h.putAll f rd _ (.inl hrd)
  have hp := h.putAll f { rd with parent := some (s.file f).dentry } _ (.inr (hn ((s.file f).seek - 2)))
  generalize State.putAll s f _ _ = r at hp
  split
  · exact hp
  split
  · exact (hp.stored _).modify (s.file f).dentry (f := fun d => { d with cached := true }) fun _ => rfl
  · exact hp

theorem Short.readdir (p id size : Nat)
    (hn : ∀ f, s.fdFind p id = some f → s.ShortEntries (s.file f).dentry) : Short (s.vfsReaddir p id size).1 := by
  unfold State.vfsReaddir
  cases hf : s.fdFind p id with
  | none => exact h
  | some f =>
    dsimp only
    split
    · exact h
    obtain ⟨n, rd, more, hdots, hrd⟩ := putDots_at s f size
    rw [hdots]
    cases more with
    | false => exact h
    | true =>
      have hfile : ((s.at f n).file f).dentry = (s.file f).dentry := by rw [at_file]
      have hat : Short (s.at f n) := h
      have hlist : (s.at f n).ShortEntries ((s.at f n).file f).dentry := hfile ▸ hn f hf
      exact hat.readEntries f rd (hrd rfl).2.1 hlist

/-! Processes -/

theorem Short.chdir (p : Nat) (hn : path.Short) : Short (s.vfsChdir p path).1 := by
  unfold State.vfsChdir
  obtain ⟨t, o, hto, ht⟩ := h.walk p hn true
  rw [hto]
  cases o with
  | error e => exact ht
  | ok d =>
    dsimp only
    split
    · exact ht
    split
    · exact ht
    · refine (Short.opened ?_ d).closed _
      exact ht

theorem Short.exit (p : Nat) : Short (s.procExit p) := by
  have hall : ∀ n (t : State Φ), Short t → Short (State.closeAll p n t) := by
    intro n
    induction n with
    | zero => exact fun t ht => ht
    | succ n ih =>
      intro t ht
      rw [State.closeAll]
      split
      · exact ht
      · exact ih _ (ht.close p _)
  refine Short.closed ?_ _
  exact hall _ s h

end

end Calls

/-- What is asked of a call: the components of its paths and the names that a listing gives fit into a dentry. -/
def State.Brief (s : State Φ) : Call → Prop
  | .lookup _ path _ | .create _ path _ | .mkdir _ path _ | .openFile _ path _ | .chdir _ path | .remove _ path
  | .rmdir _ path => path.Short
  | .rename _ old new => old.Short ∧ new.Short
  | .readdir p id _ => ∀ f, s.fdFind p id = some f → s.ShortEntries (s.file f).dentry
  | .mount _ source _ _ => ∀ path, source = some path → path.Short
  | .closeFile _ _ | .read _ _ _ | .write _ _ _ | .seek _ _ _ _ | .clone _ _ _ | .start _ | .exit _ | .umount _ _ =>
    True

theorem Short.step {c : Call} (h : Short s) (hc : s.Brief c) : Short (s.step c) := by
  unfold State.step
  split
  · cases c with
    | lookup p path mustexist => exact h.walkLoop mustexist _ hc
    | create p path mode => exact h.make _ _ p hc mode
    | mkdir p path mode => exact h.make _ _ p hc mode
    | remove p path => exact h.drop _ _ _ p hc
    | rmdir p path => exact h.drop _ _ _ p hc
    | rename p old new => exact h.rename p hc.1 hc.2
    | openFile p path flags => exact h.openPath p hc flags
    | closeFile p id => exact h.close p id
    | read p id size => exact h.read p id size
    | write p id buf => exact h.write p id buf
    | seek p id offset origin => exact h.seek p id offset origin
    | readdir p id size => exact h.readdir p id size hc
    | clone p id target =>
      rw [State.call]
      split
      · exact h
      · unfold State.fdClone State.alloc
        cases s.mem s.mems <;> exact h
    | chdir p path => exact h.chdir p hc
    | start parent =>
      refine Short.opened ?_ _
      exact h
    | exit p => exact h.exit p
    | mount p source fstype target => exact h.mount p hc fstype target
    | umount p target => exact h.umount target
  · exact h

/-- In every history of brief calls all names fit into their dentries after every call. -/
theorem names_fit (table : Nat → Ops Φ) (fsl : List (Name × Nat)) (store : Φ) (mem : Nat → Bool) (now : Nat)
    (calls : List Call) (h : Along State.step State.Brief (State.vfsInit table fsl store mem now) calls) :
    Along State.step (fun s c => ∀ d, (s.step c).live d = true → ((s.step c).dentry d).name.length < MAX_LFN)
      (State.vfsInit table fsl store mem now) calls :=
  h.imp (I := Short) (fun _ _ hs hc => hs.step hc) (fun _ _ hs hc d _ => hs.step hc d) fun _ =>
    Nat.zero_lt_succ 255

theorem names_fit_longest :
    Along State.step (fun s c => ∀ d, (s.step c).live d = true → ((s.step c).dentry d).name.length < MAX_LFN) dirInit
      (mountCalls ++ [Call.lookup 0 ⟨true, [mountName, List.replicate 255 0x41]⟩ false]) :=
  names_fit _ _ _ _ _ _ ⟨trivial, nofun, (by decide +kernel : Path.Short ⟨true, [mountName, List.replicate 255 0x41]⟩),
    trivial⟩

/-- One more byte, and the name that is recorded as missing runs over the end of its array. -/
theorem missing_name_too_long :
    let s := (mountCalls ++ [Call.lookup 0 ⟨true, [mountName, List.replicate 256 0x41]⟩ false]).foldl State.step dirInit
    s.live 2 = true ∧ s.isPositive 2 = false ∧ (s.dentry 2).name.length = MAX_LFN := by
  decide +kernel

end Novino.Vfs
