import Mathlib.Data.List.Nodup
import Mathlib.Data.Nat.Find
import Novino.Vfs.Initrd

/-! Lookups, listings and scans of the initial archive. -/

namespace Novino.Initrd
open Vfs (slash lastName lastName_append lastName_self)
open Ext2 (Name VInode I_FILE I_DIR ENOENT)

/-! ### Lookups and listings -/

def Entry.Typed (e : Entry) : Prop := e.raw Ustar.typeflag = REGTYPE ∨ e.raw Ustar.typeflag = DIRTYPE

/-- The test of `initrd_lookup` besides the name. -/
def Near (depth : Int) (dirname : Name) (e : Entry) : Prop := e.depth = depth ∧ dirname <+: e.name

/-- The test of `initrd_readdir`. -/
def Child (depth : Int) (dirname : Name) (e : Entry) : Prop :=
  e.depth = depth ∧ (depth = 0 ∨ dirname ++ [slash] <+: e.name)

/-- The children are files or directories. The first entry with a base name that a lookup looks at is a child, or no
child has that name. -/
structure Unmixed (depth : Int) (dirname : Name) (es : List Entry) : Prop where
  typed : ∀ e ∈ es, Child depth dirname e → e.Typed
  first : ∀ before e behind, es = before ++ e :: behind → Near depth dirname e → ¬Child depth dirname e →
    (∀ c ∈ before, Near depth dirname c → c.basename ≠ e.basename) →
    ¬e.Typed ∧ ∀ c ∈ es, Child depth dirname c → c.basename ≠ e.basename

section Loops
variable {depth : Int} {dirname name : Name} {es : List Entry} {e : Entry}

theorem tar2inode_flags (e : Entry) (flags : Nat) : (e.Typed ∧ (tar2inode e flags).flags ≠ 0) ∨
    (¬e.Typed ∧ (tar2inode e flags).flags = flags) := by
  unfold Entry.Typed tar2inode
  dsimp only
  by_cases hr : e.raw Ustar.typeflag = REGTYPE
  · exact .inl ⟨.inl hr, by rw [if_pos hr]; decide⟩
  · by_cases hd : e.raw Ustar.typeflag = DIRTYPE
    · exact .inl ⟨.inr hd, by rw [if_neg hr, if_pos hd]; decide⟩
    · exact .inr ⟨fun h => h.elim hr hd, by rw [if_neg hr, if_neg hd]⟩

instance : DecidablePred (Near depth dirname) := fun _ => inferInstanceAs (Decidable (_ ∧ _))

def sought (depth : Int) (dirname name : Name) (es : List Entry) : Option Entry :=
  es.find? fun a => Near depth dirname a ∧ a.basename = name

theorem sought_iff : sought depth dirname name es = some e ↔ (Near depth dirname e ∧ e.basename = name) ∧
    ∃ before behind, es = before ++ e :: behind ∧ ∀ c ∈ before, Near depth dirname c → c.basename ≠ name := by
  simp [sought, List.find?_eq_some_iff_append, imp_iff_not_or]

theorem lookupLoop_ok : (∃ inode, lookupLoop depth dirname name es = .ok (e, inode)) ↔
    e.Typed ∧ sought depth dirname name es = some e := by
  induction es with
  | nil => simp [lookupLoop, sought]
  | cons a es ih =>
    rw [lookupLoop]
    by_cases hs : Near depth dirname a ∧ a.basename = name
    · -- this entry decides
      have hsought : sought depth dirname name (a :: es) = some a := List.find?_cons_of_pos (decide_eq_true hs)
      rw [if_neg (not_not.mpr hs.1.1.symm), if_neg (not_not.mpr hs.1.2), if_pos hs.2, hsought, Option.some_inj]
      rcases tar2inode_flags a 0 with ⟨ht, hf⟩ | ⟨ht, hf⟩
      · rw [if_pos hf]
        constructor
        · rintro ⟨inode, h⟩
          obtain ⟨rfl, -⟩ := Prod.mk.inj (Except.ok.inj h)
          exact ⟨ht, rfl⟩
        · rintro ⟨-, rfl⟩
          exact ⟨_, rfl⟩
      · rw [if_neg (not_not.mpr hf)]
        refine iff_of_false (fun h => ?_) fun h => ht (h.2 ▸ h.1)
        obtain ⟨inode, h⟩ := h
        cases h
    · have hsought : sought depth dirname name (a :: es) = sought depth dirname name es :=
        List.find?_cons_of_neg (by simpa using hs)
      rw [hsought]
      split
      · exact ih
      · rename_i hd
        split
        · exact ih
        · rename_i hp
          have hnear : Near depth dirname a := ⟨(not_not.mp hd).symm, not_not.mp hp⟩
          rw [if_neg fun hb => hs ⟨hnear, hb⟩]
          exact ih

theorem prefix_slash : dirname ++ [slash] <+: e.name ↔ dirname <+: e.name ∧ e.name[dirname.length]? = some slash := by
  constructor
  · rintro ⟨rest, h⟩
    rw [← h]
    refine ⟨⟨slash :: rest, by simp⟩, by simp⟩
  · rintro ⟨⟨rest, h⟩, hs⟩
    rw [← h] at hs ⊢
    cases rest with
    | nil => simp at hs
    | cons b rest =>
      obtain rfl : b = slash := by simpa using hs
      exact ⟨rest, by simp⟩

/-- A listing has the children that are files or directories. When its inode had flags at first it has all children. -/
theorem mem_readdirLoop (flags : Nat) : (∃ inode, (e, inode) ∈ readdirLoop depth dirname 0 flags es) →
    e ∈ es ∧ Child depth dirname e := by
  induction es generalizing flags with
  | nil => simp [readdirLoop]
  | cons a es ih =>
    have later (flags : Nat) : (∃ inode, (e, inode) ∈ readdirLoop depth dirname 0 flags es) →
        e ∈ a :: es ∧ Child depth dirname e := fun h => ⟨List.mem_cons_of_mem _ (ih flags h).1, (ih flags h).2⟩
    rw [readdirLoop]
    split
    · exact later flags
    · rename_i hd
      split
      · exact later flags
      · rename_i hp
        dsimp only
        split
        · exact later _
        · rw [if_neg (by decide)]
          rintro ⟨inode, h⟩
          rcases List.mem_cons.mp h with h | h
          · obtain ⟨rfl, -⟩ := Prod.mk.inj h
            refine ⟨List.mem_cons_self, (not_not.mp hd).symm, ?_⟩
            rw [prefix_slash]
            by_cases hz : depth = 0
            · exact .inl hz
            · exact .inr (by simpa [hz] using hp)
          · exact later _ ⟨inode, h⟩

theorem readdirLoop_child (flags : Nat) (he : e ∈ es) (hc : Child depth dirname e) (ht : e.Typed ∨ flags ≠ 0) :
    ∃ inode, (e, inode) ∈ readdirLoop depth dirname 0 flags es := by
  induction es generalizing flags with
  | nil => cases he
  | cons a es ih =>
    rw [readdirLoop]
    have more (flags' : Nat) (h : flags ≠ 0 → flags' ≠ 0) (hne : e ∈ es) :
        ∃ inode, (e, inode) ∈ readdirLoop depth dirname 0 flags' es := ih flags' hne (ht.imp_right h)
    have notChild (h : ¬Child depth dirname a) : e ∈ es :=
      (List.mem_cons.mp he).resolve_left fun heq => h (heq ▸ hc)
    split
    · rename_i hd
      exact more flags id (notChild fun h => hd h.1.symm)
    · split
      · rename_i hp
        refine more flags id (notChild fun h => ?_)
        rcases h.2 with hz | hpre
        · exact hp.1 hz
        · obtain ⟨h₁, h₂⟩ := prefix_slash.mp hpre
          exact hp.2.elim (fun h => h h₁) fun h => h h₂
      · dsimp only
        rcases tar2inode_flags a flags with ⟨hta, hf⟩ | ⟨hta, hf⟩
        · rw [if_neg hf, if_neg (by decide)]
          rcases List.mem_cons.mp he with rfl | he
          · exact ⟨_, List.mem_cons_self⟩
          · obtain ⟨inode, h⟩ := more _ (fun _ => hf) he
            exact ⟨inode, List.mem_cons_of_mem _ h⟩
        · rw [hf]
          split
          · rename_i hz
            have hne : e ∈ es := (List.mem_cons.mp he).resolve_left fun heq => ht.elim (heq ▸ hta) fun h => h hz
            exact more flags id hne
          · rw [if_neg (by decide)]
            rcases List.mem_cons.mp he with rfl | he
            · exact ⟨_, List.mem_cons_self⟩
            · obtain ⟨inode, h⟩ := more flags id he
              exact ⟨inode, List.mem_cons_of_mem _ h⟩

theorem loops_agree_iff (hnear : ∀ e, Child depth dirname e → Near depth dirname e)
    (huniq : ∀ a ∈ es, ∀ b ∈ es, Child depth dirname a → Child depth dirname b → a.basename = b.basename → a = b) :
    (∀ flags name e, (∃ inode, lookupLoop depth dirname name es = .ok (e, inode)) ↔
      e.basename = name ∧ ∃ inode, (e, inode) ∈ readdirLoop depth dirname 0 flags es) ↔ Unmixed depth dirname es := by
  constructor
  · intro h
    have typed : ∀ e ∈ es, Child depth dirname e → e.Typed := by
      intro e he hc
      have hlist := readdirLoop_child 1 he hc (.inr (by decide))
      exact (lookupLoop_ok.mp ((h 1 e.basename e).mpr ⟨rfl, hlist⟩)).1
    refine ⟨typed, fun before e behind hes hn hc hfirst => ?_⟩
    have hsought : sought depth dirname e.basename es = some e :=
      sought_iff.mpr ⟨⟨hn, rfl⟩, before, behind, hes, hfirst⟩
    constructor
    · intro ht
      exact hc (mem_readdirLoop 1 ((h 1 e.basename e).mp (lookupLoop_ok.mpr ⟨ht, hsought⟩)).2).2
    · intro c hcmem hcc heq
      have hlist := readdirLoop_child 1 hcmem hcc (.inr (by decide))
      have hfound := (lookupLoop_ok.mp ((h 1 e.basename c).mpr ⟨heq, hlist⟩)).2
      cases hsought.symm.trans hfound
      exact hc hcc
  · intro hu flags name e
    rw [lookupLoop_ok]
    constructor
    · rintro ⟨ht, hsought⟩
      obtain ⟨⟨hn, rfl⟩, before, behind, hes, hfirst⟩ := sought_iff.mp hsought
      have hc : Child depth dirname e := by
        by_contra hc
        exact (hu.first before e behind hes hn hc hfirst).1 ht
      exact ⟨rfl, readdirLoop_child flags (List.mem_of_find?_eq_some hsought) hc (.inl ht)⟩
    · rintro ⟨rfl, hlist⟩
      obtain ⟨he, hc⟩ := mem_readdirLoop flags hlist
      obtain ⟨a, ha⟩ : ∃ a, sought depth dirname e.basename es = some a := by
        rw [← Option.isSome_iff_exists, sought, List.find?_isSome]
        exact ⟨e, he, decide_eq_true ⟨hnear e hc, rfl⟩⟩
      obtain ⟨⟨hn, hb⟩, before, behind, hes, hfirst⟩ := sought_iff.mp ha
      have hca : Child depth dirname a := by
        by_contra hca
        exact (hu.first before a behind hes hn hca (hb ▸ hfirst)).2 e he hc hb.symm
      obtain rfl := huniq a (List.mem_of_find?_eq_some ha) e he hca hc hb
      exact ⟨hu.typed a he hc, ha⟩

end Loops

section Prepared
variable {h : Header} {str : Name} {before : Byte}

/-- The depth is the number of slashes that are left, except for an empty string behind a slash. -/
theorem path2depth_count (before : Byte) (str : Name) :
    (path2depth before str).1 = (path2depth before str).2.count slash ∨
      str = [] ∧ path2depth before str = (-1, []) := by
  unfold path2depth
  split
  · rename_i hlast
    rcases List.eq_nil_or_concat' str with rfl | ⟨init, last, rfl⟩
    · exact .inr ⟨rfl, rfl⟩
    · left
      rw [List.getLast?_concat] at hlast
      obtain rfl : last = slash := hlast
      simp
  · exact .inl rfl

theorem prepare_eq (h : Header) (hne : h.name ≠ []) :
    (prepare h).depth = (prepare h).name.count slash ∧ (prepare h).basename = lastName (prepare h).name := by
  refine ⟨?_, rfl⟩
  exact (path2depth_count h.before h.name).resolve_right fun heq => hne heq.1

theorem child_name {e e' : Entry} {depth : Int} {dirname : Name} (hdir : depth ≠ 0 → depth = 1 + dirname.count slash)
    (he : e.depth = e.name.count slash ∧ e.basename = lastName e.name)
    (he' : e'.depth = e'.name.count slash ∧ e'.basename = lastName e'.name) (hc : Child depth dirname e)
    (hc' : Child depth dirname e') (hb : e.basename = e'.basename) : e.name = e'.name := by
  have tail : ∀ a : Entry, a.depth = a.name.count slash ∧ a.basename = lastName a.name → Child depth dirname a →
      a.name = if depth = 0 then a.basename else dirname ++ slash :: a.basename := by
    rintro a ⟨hd, hbase⟩ ⟨hdepth, hpre⟩
    rw [hbase]
    split
    · rename_i hz
      have hcount : a.name.count slash = 0 := by omega
      exact (lastName_self (List.count_eq_zero.mp hcount)).symm
    · rename_i hz
      obtain ⟨rest, hrest⟩ := hpre.resolve_left hz
      have hdir := hdir hz
      rw [← hrest] at hd ⊢
      simp only [List.count_append, List.append_assoc, List.singleton_append, List.count_cons_self] at hd
      have hcount : rest.count slash = 0 := by omega
      rw [List.append_assoc, List.singleton_append, lastName_append _ (List.count_eq_zero.mp hcount)]
  rw [tail e he hc, tail e' he' hc', hb]

end Prepared

section Archives
variable {headers : List Header}

/-- A lookup and a listing agree for all names exactly when the entries below another directory, whose name begins with
that of this one, do not come in between. -/
theorem lookup_agrees_iff (hne : ∀ h ∈ headers, h.name ≠ []) (hnodup : ((headers.map prepare).map (·.name)).Nodup)
    (dir : Option Nat) :
    (∀ flags name e, (∃ inode, initrdLookup (headers.map prepare) dir name = .ok (e, inode)) ↔
      e.basename = name ∧ ∃ inode, (e, inode) ∈ initrdReaddir (headers.map prepare) dir 0 flags) ↔
    Unmixed (openDir (headers.map prepare) dir).1 (openDir (headers.map prepare) dir).2.1
      (openDir (headers.map prepare) dir).2.2 := by
  have stored : ∀ e ∈ headers.map prepare, e.depth = e.name.count slash ∧ e.basename = lastName e.name := by
    intro e he
    obtain ⟨h, hmem, rfl⟩ := List.mem_map.mp he
    exact prepare_eq h (hne h hmem)
  have hopen : ∃ depth dirname es, openDir (headers.map prepare) dir = (depth, dirname, es) ∧
      (depth = 0 → dirname = []) ∧ (depth ≠ 0 → depth = 1 + dirname.count slash) ∧
      ∀ e ∈ es, Child depth dirname e → e ∈ headers.map prepare := by
    cases dir with
    | none => exact ⟨0, [], headers.map prepare, rfl, fun _ => rfl, fun h => absurd rfl h, fun e he _ => he⟩
    | some i =>
      rw [openDir]
      split
      · exact ⟨0, [], [], rfl, fun _ => rfl, fun h => absurd rfl h, fun e he => (nomatch he)⟩
      · rename_i e es hdrop
        have hin : ∀ a ∈ e :: es, a ∈ headers.map prepare := fun a ha => List.mem_of_mem_drop (hdrop ▸ ha)
        rcases path2depth_count e.before e.name with hcount | ⟨hnil, hneg⟩
        · generalize path2depth e.before e.name = p at hcount
          obtain ⟨d, dirname⟩ := p
          have hcount : d = dirname.count slash := hcount
          refine ⟨1 + d, dirname, _, rfl, fun hz => ?_, fun _ => by rw [hcount], fun a ha hc => ?_⟩
          · omega
          · rcases List.mem_cons.mp ha with rfl | ha
            · -- the directory is not its own child
              have hpre := hc.2.resolve_left (by omega)
              have hlen := hpre.length_le
              simp only [List.length_append, List.length_singleton] at hlen
              omega
            · exact hin a (List.mem_cons_of_mem _ ha)
        · rw [hneg]
          refine ⟨_, _, _, rfl, fun _ => rfl, fun h => absurd rfl h, fun a ha hc => ?_⟩
          rcases List.mem_cons.mp ha with rfl | ha
          · rw [← hnil]
            exact hin e List.mem_cons_self
          · exact hin a (List.mem_cons_of_mem _ ha)
  obtain ⟨depth, dirname, es, heq, hzero, hdepth, hmem⟩ := hopen
  simp only [initrdLookup, initrdReaddir, heq]
  refine loops_agree_iff (fun e hc => ⟨hc.1, ?_⟩) fun a ha b hb hca hcb hbase => ?_
  · rcases hc.2 with hz | hpre
    · rw [hzero hz]
      exact List.nil_prefix
    · exact (List.prefix_append _ _).trans hpre
  · have hname := child_name hdepth (stored a (hmem a ha hca)) (stored b (hmem b hb hcb)) hca hcb hbase
    exact List.inj_on_of_nodup_map hnodup (hmem a ha hca) (hmem b hb hcb) hname

end Archives

def mixedArchive : List Entry :=
  [⟨fun _ => DIRTYPE, 0, [0x61, slash]⟩, ⟨fun _ => DIRTYPE, 0, [0x61, 0x62, slash]⟩,
    ⟨fun _ => REGTYPE, 0, [0x61, 0x62, slash, 0x78]⟩].map prepare

/-- A lookup of `x` in `a` finds `ab/x`, because only the start of the name is compared; the listing of `a` does not.
-/
theorem lookup_in_neighbour :
    (initrdLookup mixedArchive (some 0) [0x78]).toOption.map (·.1.name) = some [0x61, 0x62, slash, 0x78] ∧
      (initrdReaddir mixedArchive (some 0) 0 0).map (·.1.name) = [] := by
  decide

theorem lookup_agrees_own : ∃ e inode inode', initrdLookup mixedArchive (some 1) [0x78] = .ok (e, inode) ∧
    (e, inode') ∈ initrdReaddir mixedArchive (some 1) 0 0 := by
  have typed : ∀ e ∈ (openDir mixedArchive (some 1)).2.2, e.Typed := by
    unfold Entry.Typed
    decide
  have near : ∀ e ∈ (openDir mixedArchive (some 1)).2.2,
      Near (openDir mixedArchive (some 1)).1 (openDir mixedArchive (some 1)).2.1 e →
      Child (openDir mixedArchive (some 1)).1 (openDir mixedArchive (some 1)).2.1 e := by
    unfold Near Child
    decide
  have hagree := (lookup_agrees_iff (by decide) (by decide) (some 1)).mpr ⟨fun e he _ => typed e he,
    fun before e behind hes hn hc _ => absurd (near e (hes ▸ by simp) hn) hc⟩
  obtain ⟨-, inode', hmem⟩ := (hagree 0 [0x78] _).mp ⟨_, rfl⟩
  exact ⟨_, _, inode', rfl, hmem⟩

namespace Image
section Bytes
variable {im : Image} {pos j : Nat}

theorem lt_str_length : j < (im.str pos).length ↔ pos + j < im.size ∧ ∀ i ≤ j, im.mem (pos + i) ≠ 0 := by
  have reach : ∀ n o j, j < (((List.range' o n).map fun i => im.mem (pos + i)).takeWhile (· != 0)).length ↔
      j < n ∧ ∀ i ≤ j, im.mem (pos + (o + i)) ≠ 0 := by
    intro n
    induction n with
    | zero => simp
    | succ n ih =>
      intro o j
      rw [List.range'_succ, List.map_cons, List.takeWhile_cons]
      by_cases hz : im.mem (pos + o) = 0
      · rw [if_neg (by simp [hz])]
        exact iff_of_false (by simp) fun h => h.2 0 (Nat.zero_le _) hz
      · rw [if_pos (bne_iff_ne.mpr hz), List.length_cons]
        cases j with
        | zero => simpa using hz
        | succ j =>
          rw [Nat.add_lt_add_iff_right, Nat.add_lt_add_iff_right, ih]
          refine and_congr_right fun _ => ⟨fun h i hi => ?_, fun h i hi => ?_⟩
          · cases i with
            | zero => exact hz
            | succ i => exact Nat.add_right_comm o 1 i ▸ h i (Nat.le_of_succ_le_succ hi)
          · exact Nat.add_right_comm o 1 i ▸ h (i + 1) (Nat.succ_le_succ hi)
  rw [str, Block.rdBytes, List.range_eq_range', reach]
  simp only [Nat.zero_add]
  refine and_congr_left fun _ => ?_
  omega

theorem str_getElem (h : j < (im.str pos).length) : (im.str pos)[j] = im.mem (pos + j) := by
  have hpre : im.str pos <+: im.mem.rdBytes pos (im.size - pos) := List.takeWhile_prefix _
  rw [hpre.getElem h]
  simp [Block.rdBytes]

def Slashes (im : Image) (pos : Nat) : Prop := ∀ c ∈ im.str pos, c = slash

theorem slashes_iff : im.Slashes pos ↔ ∀ j < (im.str pos).length, im.mem (pos + j) = slash := by
  unfold Slashes
  rw [List.forall_mem_iff_getElem]
  exact forall_congr' fun j => forall_congr' fun h => by rw [str_getElem h]

theorem cut_mem {i : Nat} (h : i + 1 ≠ pos + (im.str pos).length) : (im.cut pos).mem i = im.mem i := by
  unfold cut
  split
  · rename_i hlast
    by_cases hz : pos + (im.str pos).length = 0
    · obtain ⟨rfl, hnil⟩ : pos = 0 ∧ (im.str pos).length = 0 := by omega
      rw [List.eq_nil_of_length_eq_zero hnil] at hlast
      exact absurd (show (0 : Byte) = slash from hlast) (by decide)
    · exact if_neg (by omega)
  · rfl

theorem cut_mem_slash {i : Nat} (h : 0 < (im.str pos).length) (hi : i + 1 = pos + (im.str pos).length) :
    (im.mem i = slash ∧ (im.cut pos).mem i = 0) ∨ (im.mem i ≠ slash ∧ (im.cut pos).mem i = im.mem i) := by
  have hlast : (im.str pos).getLast?.getD (im.header pos).before = im.mem i := by
    rw [List.getLast?_eq_getElem?, List.getElem?_eq_getElem (by omega), Option.getD_some, str_getElem]
    congr 1
    omega
  unfold cut
  rw [hlast]
  by_cases hs : im.mem i = slash
  · rw [if_pos hs]
    exact .inl ⟨hs, if_pos (by omega)⟩
  · rw [if_neg hs]
    exact .inr ⟨hs, rfl⟩

@[simp] theorem cut_size : (im.cut pos).size = im.size := by
  unfold cut
  split <;> rfl

@[simp] theorem cut_last : (im.cut pos).last = im.last := by
  unfold cut
  split <;> rfl

@[simp] theorem prepareAt_size : (im.prepareAt pos).size = im.size := cut_size

@[simp] theorem prepareAt_last : (im.prepareAt pos).last = im.last := cut_last

theorem prepareAt_mem {i : Nat} (h : i < pos + Ustar.isize ∨ pos + ustarSize ≤ i) :
    (im.prepareAt pos).mem i = (im.cut pos).mem i := by
  have h : i < pos + 490 ∨ pos + 510 ≤ i := h
  have keep : ∀ (b : Block) o v, i < o ∨ o + 4 ≤ i → b.wr32 o v i = b i := by
    intro b o v hi
    have hag : Block.Agree (b.wr32 o v) b i (i + 1) := Block.agree_wr32 (by omega)
    exact hag i (Nat.le_refl _) (Nat.lt_succ_self _)
  unfold prepareAt
  simp only [Ustar.depth, Ustar.isize, Ustar.offset, Ustar.basename]
  rw [keep _ _ _ (by omega), keep _ _ _ (by omega), keep _ _ _ (by omega), keep _ _ _ (by omega), keep _ _ _ (by omega)]

theorem step_lt (size : Nat) : step size < 2 ^ 32 := Nat.mod_lt _ (by decide)

theorem step_dvd (size : Nat) : 512 ∣ step size :=
  (Nat.dvd_mod_iff (by decide)).mpr (Nat.dvd_mul_left _ _)

theorem prepareAt_offset : (im.prepareAt pos).mem.rd32 (pos + Ustar.offset) = im.stepAt pos := by
  unfold prepareAt
  simp only [Ustar.depth, Ustar.isize, Ustar.offset, Ustar.basename]
  have above : ∀ (b : Block) o v, pos + 498 ≤ o → (b.wr32 o v).rd32 (pos + 494) = b.rd32 (pos + 494) := by
    intro b o v ho
    have hag : Block.Agree (b.wr32 o v) b 0 (pos + 498) := Block.agree_wr32 (.inl ho)
    exact hag.rd32 (Nat.zero_le _) (Nat.le_refl _)
  rw [above _ _ _ (by omega), above _ _ _ (by omega), Block.rd32_wr32]
  exact Nat.mod_eq_of_lt (step_lt _)

end Bytes

section Steps
variable {mem mem' : Block} {n c size : Nat}

theorem oct2binLoop_slash (h : ∀ i, c ≤ i → i < c + size → mem' i = mem i ∨ (mem i = slash ∧ mem' i = 0))
    (hne : oct2binLoop mem n c size ≠ 0) : oct2binLoop mem' n c size = oct2binLoop mem n c size := by
  induction size generalizing n c with
  | zero => rfl
  | succ size ih =>
    rw [oct2binLoop] at hne
    rcases h c (Nat.le_refl _) (by omega) with heq | ⟨hs, -⟩
    · have hrd : mem'.rd8 c = mem.rd8 c := by rw [Block.rd8, Block.rd8, heq]
      rw [oct2binLoop, oct2binLoop, hrd, heq]
      by_cases hd : 0x30 ≤ mem.rd8 c ∧ mem.rd8 c ≤ 0x37
      · rw [if_pos hd] at hne
        rw [if_pos hd, if_pos hd]
        exact ih (fun i h₁ h₂ => h i (by omega) (by omega)) hne
      · rw [if_neg hd, if_neg hd]
    · simp [Block.rd8, hs, slash] at hne

theorem oct2bin_first (hne : oct2bin mem c (size + 1) ≠ 0) : mem c ≠ 0 ∧ mem c ≠ slash := by
  rw [oct2bin, oct2binLoop] at hne
  split at hne
  · rename_i hd
    constructor <;> intro heq <;> rw [Block.rd8, heq] at hd <;> exact absurd hd (by decide)
  · split at hne <;> exact absurd rfl hne

end Steps

/-! A header whose step is zero is prepared again and again. -/

section Zero
variable {im : Image} {pos : Nat}

theorem oct2bin_of_zero (h : im.stepAt pos = 0) : oct2bin im.mem (pos + Ustar.size) 12 ≠ 0 := by
  intro hz
  rw [stepAt, hz] at h
  exact absurd h (by decide)

section
variable (h : 0 < (im.str pos).length)
include h

/-- The bytes of the header before the last fields: a slash at the end of the name may become a NUL. -/
theorem prepareAt_byte {i : Nat} (hi : i < Ustar.isize) :
    (im.prepareAt pos).mem (pos + i) = im.mem (pos + i) ∨
      (i + 1 = (im.str pos).length ∧ im.mem (pos + i) = slash ∧ (im.prepareAt pos).mem (pos + i) = 0) := by
  rw [prepareAt_mem (.inl (by omega))]
  by_cases hlast : i + 1 = (im.str pos).length
  · rcases cut_mem_slash h (show pos + i + 1 = _ by omega) with ⟨hs, hz⟩ | ⟨-, heq⟩
    · exact .inr ⟨hlast, hs, hz⟩
    · exact .inl heq
  · exact .inl (cut_mem (by omega))

theorem stepAt_prepareAt (hz : im.stepAt pos = 0) :
    (im.prepareAt pos).stepAt pos = 0 := by
  have hkeep : oct2bin (im.prepareAt pos).mem (pos + Ustar.size) 12 = oct2bin im.mem (pos + Ustar.size) 12 := by
    refine oct2binLoop_slash (fun i h₁ h₂ => ?_) (oct2bin_of_zero hz)
    simp only [Ustar.size] at h₁ h₂
    have hi : i - pos < Ustar.isize := by
      simp only [Ustar.isize]
      omega
    have hbyte := prepareAt_byte h hi
    rw [show pos + (i - pos) = i by omega] at hbyte
    exact hbyte.imp_right fun hs => hs.2
  rw [stepAt, hkeep]
  exact hz

theorem slashes_prepareAt (hz : im.stepAt pos = 0) (hs : im.Slashes pos) :
    (im.prepareAt pos).Slashes pos ∧ ((im.prepareAt pos).str pos).length < (im.str pos).length := by
  rw [slashes_iff] at hs ⊢
  have hdigit := (oct2bin_first (oct2bin_of_zero hz)).2
  have hshort : (im.str pos).length ≤ 124 := by
    by_contra hlong
    exact hdigit (hs 124 (by omega))
  obtain ⟨len, hlen⟩ : ∃ len, (im.str pos).length = len + 1 := ⟨_, (Nat.succ_pred_eq_of_pos h).symm⟩
  have hend : (im.prepareAt pos).mem (pos + len) = 0 := by
    rw [prepareAt_mem (.inl (by simp only [Ustar.isize]; omega))]
    rcases cut_mem_slash h (show pos + len + 1 = _ by omega) with ⟨-, hnul⟩ | ⟨hne, -⟩
    · exact hnul
    · exact absurd (hs len (by omega)) hne
  have hle : ((im.prepareAt pos).str pos).length ≤ len := by
    by_contra hlt
    exact (lt_str_length.mp (Nat.lt_of_not_le hlt)).2 len (Nat.le_refl _) hend
  refine ⟨fun j hj => ?_, by omega⟩
  rcases prepareAt_byte h (i := j) (by simp only [Ustar.isize]; omega) with heq | ⟨hlast, -⟩
  · rw [heq]
    exact hs j (by omega)
  · omega

theorem not_slashes_prepareAt (hz : im.stepAt pos = 0) (hs : ¬im.Slashes pos) : ¬(im.prepareAt pos).Slashes pos := by
  have hdigit := (oct2bin_first (oct2bin_of_zero hz)).2
  -- a byte of the name, at the latest the first one of the size
  obtain ⟨j, hj, hlong, hne⟩ : ∃ j < (im.str pos).length, j ≤ 124 ∧ im.mem (pos + j) ≠ slash := by
    by_cases hlong : 124 < (im.str pos).length
    · exact ⟨124, hlong, Nat.le_refl _, hdigit⟩
    · rw [slashes_iff] at hs
      push Not at hs
      obtain ⟨j, hj, hne⟩ := hs
      exact ⟨j, hj, by omega, hne⟩
  have hkeep : ∀ i ≤ j, (im.prepareAt pos).mem (pos + i) = im.mem (pos + i) := by
    intro i hi
    refine (prepareAt_byte h (by simp only [Ustar.isize]; omega)).resolve_right ?_
    rintro ⟨hlast, hslash, -⟩
    obtain rfl : i = j := by omega
    exact hne hslash
  obtain ⟨hin, hnz⟩ := lt_str_length.mp hj
  have hj' : j < ((im.prepareAt pos).str pos).length :=
    lt_str_length.mpr ⟨by rwa [prepareAt_size], fun i hi => by rw [hkeep i hi]; exact hnz i hi⟩
  intro hs'
  refine hne ?_
  rw [← hkeep j (Nat.le_refl _)]
  exact slashes_iff.mp hs' j hj'

end

end Zero

/-! ### Rounds of the scan that prepares the image -/

section Rounds
variable {mem : Block} {size : Nat} {n m : Nat}

def rounds (mem : Block) (size n : Nat) : Image × Nat := next^[n] (⟨mem, size, size⟩, 0)

theorem rounds_succ : rounds mem size (n + 1) = next (rounds mem size n) := Function.iterate_succ_apply' next n _

theorem rounds_active (h : Active (rounds mem size n)) : rounds mem size (n + 1) =
    ((rounds mem size n).1.prepareAt (rounds mem size n).2,
      (rounds mem size n).2 + (rounds mem size n).1.stepAt (rounds mem size n).2) := by
  rw [rounds_succ, next, if_pos h]

theorem rounds_stopped (h : ¬Active (rounds mem size n)) (hle : n ≤ m) : rounds mem size m = rounds mem size n := by
  induction m, hle using Nat.le_induction with
  | base => rfl
  | succ m _ ih => rw [rounds_succ, ih, next, if_neg h]

theorem rounds_size : (rounds mem size n).1.size = size ∧ (rounds mem size n).1.last = size := by
  induction n with
  | zero => exact ⟨rfl, rfl⟩
  | succ n ih =>
    rw [rounds_succ, next]
    split
    · simpa using ih
    · exact ih

theorem rounds_str (h : Active (rounds mem size n)) : 0 < ((rounds mem size n).1.str (rounds mem size n).2).length := by
  refine lt_str_length.mpr ⟨?_, fun i hi => ?_⟩
  · rw [rounds_size.1]
    have hlt := h.1
    rwa [rounds_size.2] at hlt
  · obtain rfl : i = 0 := by omega
    exact h.2

theorem rounds_keep (hle : n ≤ m) : (rounds mem size n).2 ≤ (rounds mem size m).2 ∧
    Block.Agree (rounds mem size m).1.mem (rounds mem size n).1.mem 0 (rounds mem size n).2 := by
  induction m, hle using Nat.le_induction with
  | base => exact ⟨Nat.le_refl _, Block.Agree.refl _ _ _⟩
  | succ m _ ih =>
    by_cases h : Active (rounds mem size m)
    · have hstr := rounds_str h
      rw [rounds_active h]
      refine ⟨by omega, fun i _ hi => ?_⟩
      rw [← ih.2 i (Nat.zero_le _) hi, prepareAt_mem (.inl (by omega)), cut_mem (by omega)]
    · rw [rounds_stopped h (Nat.le_succ m)]
      exact ih

theorem stepAt_ge {im : Image} {pos : Nat} (h : im.stepAt pos ≠ 0) : ∃ k, im.stepAt pos = 512 * (k + 1) := by
  obtain ⟨k, hk⟩ := step_dvd (oct2bin im.mem (pos + Ustar.size) 12)
  have hk : im.stepAt pos = 512 * k := hk
  exact ⟨k - 1, by omega⟩

theorem rounds_offset (h : Active (rounds mem size n))
    (hstep : (rounds mem size n).1.stepAt (rounds mem size n).2 ≠ 0) (hlt : n < m) :
    (rounds mem size m).1.mem.rd32 ((rounds mem size n).2 + Ustar.offset) =
      (rounds mem size n).1.stepAt (rounds mem size n).2 := by
  obtain ⟨k, hk⟩ := stepAt_ge hstep
  have hkeep : Block.Agree (rounds mem size m).1.mem (rounds mem size (n + 1)).1.mem 0 (rounds mem size (n + 1)).2 :=
    (rounds_keep (Nat.succ_le_of_lt hlt)).2
  rw [rounds_active h] at hkeep
  rw [hkeep.rd32 (Nat.zero_le _) (by simp only [Ustar.offset]; omega), prepareAt_offset]

theorem rounds_zero (hz : (rounds mem size n).1.stepAt (rounds mem size n).2 = 0) (hle : n ≤ m) :
    (rounds mem size m).2 = (rounds mem size n).2 ∧ (rounds mem size m).1.stepAt (rounds mem size m).2 = 0 ∧
      ((rounds mem size m).1.Slashes (rounds mem size m).2 ↔ (rounds mem size n).1.Slashes (rounds mem size n).2) := by
  induction m, hle using Nat.le_induction with
  | base => exact ⟨rfl, hz, Iff.rfl⟩
  | succ m _ ih =>
    obtain ⟨hpos, hstep, hs⟩ := ih
    by_cases h : Active (rounds mem size m)
    · rw [rounds_active h, hstep, Nat.add_zero]
      refine ⟨hpos, stepAt_prepareAt (rounds_str h) hstep, Iff.trans ?_ hs⟩
      by_cases hsl : (rounds mem size m).1.Slashes (rounds mem size m).2
      · exact iff_of_true (slashes_prepareAt (rounds_str h) hstep hsl).1 hsl
      · exact iff_of_false (not_slashes_prepareAt (rounds_str h) hstep hsl) hsl
    · rw [rounds_stopped h (Nat.le_succ m)]
      exact ⟨hpos, hstep, hs⟩

theorem active_of_not_slashes (h : ¬(rounds mem size n).1.Slashes (rounds mem size n).2) :
    Active (rounds mem size n) := by
  rw [slashes_iff] at h
  push Not at h
  obtain ⟨j, hj, -⟩ := h
  obtain ⟨hin, hnz⟩ := lt_str_length.mp hj
  rw [rounds_size.1] at hin
  refine ⟨?_, hnz 0 (Nat.zero_le _)⟩
  rw [rounds_size.2]
  omega

theorem rounds_slashes_end (hz : (rounds mem size n).1.stepAt (rounds mem size n).2 = 0)
    (hs : (rounds mem size n).1.Slashes (rounds mem size n).2) : ∃ m, n ≤ m ∧ ¬Active (rounds mem size m) := by
  -- the name of round `n + k` has lost `k` bytes
  by_contra hall
  push Not at hall
  have shrink : ∀ k, ((rounds mem size (n + k)).1.str (rounds mem size (n + k)).2).length + k ≤
      ((rounds mem size n).1.str (rounds mem size n).2).length := by
    intro k
    induction k with
    | zero => exact Nat.le_refl _
    | succ k ih =>
      obtain ⟨-, hstep, hsl⟩ := rounds_zero hz (Nat.le_add_right n k)
      have hact := hall (n + k) (Nat.le_add_right n k)
      have hless := (slashes_prepareAt (rounds_str hact) hstep (hsl.mpr hs)).2
      rw [show n + (k + 1) = n + k + 1 from rfl, rounds_active hact, hstep, Nat.add_zero]
      dsimp only
      omega
  have hall' := shrink (((rounds mem size n).1.str (rounds mem size n).2).length + 1)
  omega

theorem exists_pause (mem : Block) (size : Nat) : ∃ n,
    (∀ i < n, Active (rounds mem size i) ∧ (rounds mem size i).1.stepAt (rounds mem size i).2 ≠ 0) ∧
      (Active (rounds mem size n) → (rounds mem size n).1.stepAt (rounds mem size n).2 = 0) := by
  have hsome : ∃ n, ¬(Active (rounds mem size n) ∧ (rounds mem size n).1.stepAt (rounds mem size n).2 ≠ 0) := by
    by_contra hall
    push Not at hall
    have hfar : ∀ n, n ≤ (rounds mem size n).2 := by
      intro n
      induction n with
      | zero => exact Nat.zero_le _
      | succ n ih =>
        obtain ⟨hact, hstep⟩ := hall n
        rw [rounds_active hact]
        dsimp only
        omega
    have hin := (hall size).1.1
    rw [rounds_size.2] at hin
    have := hfar size
    omega
  classical
  refine ⟨Nat.find hsome, fun i hi => not_not.mp (Nat.find_min hsome hi), fun h => ?_⟩
  by_contra hne
  exact Nat.find_spec hsome ⟨h, hne⟩

end Rounds

def Visits (im : Image) (p : Nat) : Prop := p < im.last ∧ ∃ k, im.hop^[k] 0 = p

def Scans (im : Image) (start : Nat) : Prop :=
  (∃ k, im.last ≤ im.hop^[k] start) ∧ ∀ k, im.hop^[k] start < im.last → im.hop^[k] start + ustarSize ≤ im.size

/-- What calls of `initrd_lookup` and `initrd_readdir` make of an image. One for a directory cuts its name again. -/
inductive Calls (im : Image) : Image → Prop
  | none : Calls im im
  | cut {im' : Image} {p : Nat} : Calls im im' → im'.Visits p → Calls im (im'.cut p)

/-- The scan of `initrd_init` ends, and so do the later ones, over headers inside the image. -/
def Scannable (mem : Block) (size : Nat) : Prop :=
  (∃ n, ¬Active (rounds mem size n)) ∧ ∀ n, ¬Active (rounds mem size n) → ∀ im, Calls (finish (rounds mem size n)) im →
    im.Scans 0 ∧ ∀ p, im.Visits p → (im.cut p).Scans p

/-- The headers of a prepared image, at the offsets `pos 0`, `pos 1`, up to the end at `pos n`. -/
structure Trail (im : Image) (pos : Nat → Nat) (n : Nat) : Prop where
  first : pos 0 = 0
  far : ∀ i < n, ∃ k, pos (i + 1) = pos i + 512 * (k + 1)
  inside : ∀ i < n, pos i < im.last
  last : im.last ≤ pos n
  offset : ∀ i < n, pos i + im.mem.rd32 (pos i + Ustar.offset) = pos (i + 1)

section Trail
variable {im im' : Image} {pos : Nat → Nat} {n i j k : Nat}

section
variable (h : Trail im pos n)
include h

theorem Trail.apart (hij : i < j) (hj : j ≤ n) : pos i + 512 ≤ pos j := by
  induction j with
  | zero => omega
  | succ j ih =>
    obtain ⟨k, hk⟩ := h.far j (by omega)
    rcases Nat.lt_succ_iff_lt_or_eq.mp hij with hlt | rfl
    · have := ih hlt (by omega)
      omega
    · omega

theorem Trail.str_length (hi : i < n) : (im.str (pos i)).length ≤ Ustar.offset := by
  have hlow : im.mem (pos i + Ustar.offset) = 0 := by
    obtain ⟨k, hk⟩ := h.far i hi
    have hoff := h.offset i hi
    apply BitVec.eq_of_toNat_eq
    have hbyte := im.mem.rd8_lt (pos i + Ustar.offset)
    simp only [Block.rd32, Block.rd16] at hoff
    change im.mem.rd8 (pos i + Ustar.offset) = 0
    omega
  by_contra hlong
  exact (lt_str_length.mp (Nat.lt_of_not_le hlong)).2 _ (Nat.le_refl _) hlow

theorem Trail.hop (hi : i < n) : im.hop (pos i) = pos (i + 1) := by
  rw [Image.hop, if_pos (h.inside i hi), h.offset i hi]

theorem Trail.iterate (hi : i ≤ n) (k : Nat) : im.hop^[k] (pos i) = pos (min (i + k) n) := by
  induction k with
  | zero => rw [Function.iterate_zero_apply, Nat.add_zero, Nat.min_eq_left hi]
  | succ k ih =>
    rw [Function.iterate_succ_apply', ih]
    by_cases hlt : i + k < n
    · rw [Nat.min_eq_left (by omega), h.hop hlt, Nat.min_eq_left (by omega), Nat.add_assoc]
    · rw [Nat.min_eq_right (by omega), Nat.min_eq_right (by omega), Image.hop, if_neg (Nat.not_lt.mpr h.last)]

theorem Trail.visits {p : Nat} (hp : im.Visits p) : ∃ i < n, p = pos i := by
  obtain ⟨hlast, k, rfl⟩ := hp
  rw [← h.first, h.iterate (Nat.zero_le _)] at hlast ⊢
  refine ⟨_, Nat.lt_of_not_le fun hge => ?_, rfl⟩
  rw [Nat.min_eq_right (by omega)] at hlast
  exact Nat.not_lt.mpr h.last hlast

theorem Trail.scans_iff (hi : i ≤ n) : im.Scans (pos i) ↔ ∀ j, i ≤ j → j < n → pos j + ustarSize ≤ im.size := by
  unfold Scans
  simp only [h.iterate hi]
  constructor
  · rintro ⟨-, hall⟩ j hij hj
    have hmin : min (i + (j - i)) n = j := by omega
    exact hmin ▸ hall (j - i) (hmin.symm ▸ h.inside j hj)
  · intro hall
    refine ⟨⟨n, ?_⟩, fun k hk => ?_⟩
    · rw [Nat.min_eq_right (by omega)]
      exact h.last
    · by_cases hlt : i + k < n
      · rw [Nat.min_eq_left (by omega)]
        exact hall _ (by omega) hlt
      · rw [Nat.min_eq_right (by omega)] at hk
        exact absurd hk (Nat.not_lt.mpr h.last)

theorem Trail.cut (hi : i < n) : Trail (im.cut (pos i)) pos n where
  first := h.first
  far := h.far
  inside j hj := by
    rw [cut_last]
    exact h.inside j hj
  last := by
    rw [cut_last]
    exact h.last
  offset j hj := by
    have hlen : (im.str (pos i)).length ≤ 494 := h.str_length hi
    have hag : Block.Agree (im.cut (pos i)).mem im.mem (pos j + 494) (pos j + 498) := by
      intro o h₁ h₂
      apply cut_mem
      rcases Nat.lt_trichotomy i j with hlt | rfl | hlt
      · have := h.apart hlt (Nat.le_of_lt hj)
        omega
      · omega
      · have := h.apart hlt (Nat.le_of_lt hi)
        omega
    have hrd : (im.cut (pos i)).mem.rd32 (pos j + Ustar.offset) = im.mem.rd32 (pos j + Ustar.offset) :=
      hag.rd32 (Nat.le_refl _) (Nat.le_refl _)
    rw [hrd]
    exact h.offset j hj

theorem Trail.calls (hc : Calls im im') : Trail im' pos n ∧ im'.size = im.size := by
  induction hc with
  | none => exact ⟨h, rfl⟩
  | cut _ hp ih =>
    obtain ⟨i, hi, rfl⟩ := ih.1.visits hp
    exact ⟨ih.1.cut hi, by rw [cut_size, ih.2]⟩

end

end Trail

section Scannable
variable {mem : Block} {size n m : Nat}

theorem rounds_trail
    (hrun : ∀ i < n, Active (rounds mem size i) ∧ (rounds mem size i).1.stepAt (rounds mem size i).2 ≠ 0)
    (hle : n ≤ m) (hpos : (rounds mem size m).2 = (rounds mem size n).2) :
    Trail (finish (rounds mem size m)) (fun i => (rounds mem size i).2) n := by
  have hmem : (finish (rounds mem size m)).mem = (rounds mem size m).1.mem := by
    unfold finish
    split <;> rfl
  have hlast : (finish (rounds mem size m)).last = min (rounds mem size n).2 size := by
    unfold finish
    rw [hpos, rounds_size.2]
    split
    · rename_i hlt
      exact (Nat.min_eq_left (Nat.le_of_lt hlt)).symm
    · rw [rounds_size.2]
      exact (Nat.min_eq_right (by omega)).symm
  have hnext : ∀ i < n, (rounds mem size (i + 1)).2 =
      (rounds mem size i).2 + (rounds mem size i).1.stepAt (rounds mem size i).2 := by
    intro i hi
    rw [rounds_active (hrun i hi).1]
  have hfar : ∀ i < n, ∃ k, (rounds mem size (i + 1)).2 = (rounds mem size i).2 + 512 * (k + 1) := by
    intro i hi
    obtain ⟨k, hk⟩ := stepAt_ge (hrun i hi).2
    exact ⟨k, by rw [hnext i hi, hk]⟩
  refine ⟨rfl, hfar, fun i hi => ?_, ?_, fun i hi => ?_⟩
  · obtain ⟨k, hk⟩ := hfar i hi
    have hin := (hrun i hi).1.1
    rw [rounds_size.2] at hin
    have hup : (rounds mem size (i + 1)).2 ≤ (rounds mem size n).2 := (rounds_keep (Nat.succ_le_of_lt hi)).1
    rw [hlast]
    omega
  · rw [hlast]
    exact Nat.min_le_left _ _
  · rw [hmem, rounds_offset (hrun i hi).1 (hrun i hi).2 (by omega), hnext i hi]

/-- The header where a round is lies in the image and has a step, or its name consists of slashes and is used up. -/
def Fine (s : Image × Nat) : Prop :=
  if s.1.stepAt s.2 = 0 then s.1.Slashes s.2 else s.2 + ustarSize ≤ s.1.size

theorem rounds_stuck (hz : (rounds mem size n).1.stepAt (rounds mem size n).2 = 0)
    (hs : ¬(rounds mem size n).1.Slashes (rounds mem size n).2) (m : Nat) : Active (rounds mem size m) := by
  rcases Nat.le_total n m with hle | hle
  · exact active_of_not_slashes (mt (rounds_zero hz hle).2.2.mp hs)
  · by_contra hm
    exact (rounds_stopped hm hle ▸ hm) (active_of_not_slashes hs)

theorem rounds_end (hpause : Active (rounds mem size n) → (rounds mem size n).1.stepAt (rounds mem size n).2 = 0)
    (hs : Active (rounds mem size n) → (rounds mem size n).1.Slashes (rounds mem size n).2) :
    ∃ m, n ≤ m ∧ ¬Active (rounds mem size m) ∧ (rounds mem size m).2 = (rounds mem size n).2 ∧
      ∀ i, n ≤ i → Active (rounds mem size i) → Fine (rounds mem size i) := by
  by_cases hact : Active (rounds mem size n)
  · have hz := hpause hact
    obtain ⟨m, hle, hend⟩ := rounds_slashes_end hz (hs hact)
    refine ⟨m, hle, hend, (rounds_zero hz hle).1, fun i hi _ => ?_⟩
    obtain ⟨-, hzi, hsi⟩ := rounds_zero hz hi
    rw [Fine, if_pos hzi]
    exact hsi.mpr (hs hact)
  · exact ⟨n, Nat.le_refl _, hact, rfl, fun i hi h => absurd (rounds_stopped hact hi ▸ h) hact⟩

/-- All scans end inside the image exactly when each header that `initrd_init` comes to lies inside it and has a step
that is not zero. -/
theorem scannable_iff (mem : Block) (size : Nat) :
    Scannable mem size ↔ ∀ n, Active (rounds mem size n) → Fine (rounds mem size n) := by
  obtain ⟨n, hrun, hpause⟩ := exists_pause mem size
  by_cases hstuck : Active (rounds mem size n) ∧ ¬(rounds mem size n).1.Slashes (rounds mem size n).2
  · have hz := hpause hstuck.1
    refine iff_of_false (fun h => ?_) fun h => ?_
    · obtain ⟨m, hm⟩ := h.1
      exact hm (rounds_stuck hz hstuck.2 m)
    · have hfine := h n hstuck.1
      rw [Fine, if_pos hz] at hfine
      exact hstuck.2 hfine
  · obtain ⟨m, hle, hend, hpos, hrest⟩ := rounds_end hpause fun hact => not_not.mp fun hs => hstuck ⟨hact, hs⟩
    have htrail := rounds_trail hrun hle hpos
    have hsize : (finish (rounds mem size m)).size = size := by
      unfold finish
      split <;> exact rounds_size.1
    have fine : ∀ i < n, Fine (rounds mem size i) ↔ (rounds mem size i).2 + ustarSize ≤ size := by
      intro i hi
      rw [Fine, if_neg (hrun i hi).2, rounds_size.1]
    constructor
    · rintro ⟨-, hlater⟩ i hact
      rcases Nat.lt_or_ge i n with hi | hi
      · have hscan := (hlater m hend _ .none).1
        have hin := (htrail.scans_iff (Nat.zero_le _)).mp hscan i (Nat.zero_le _) hi
        rw [hsize] at hin
        exact (fine i hi).mpr hin
      · exact hrest i hi hact
    · intro hall
      have hin : ∀ i < n, (rounds mem size i).2 + ustarSize ≤ size := fun i hi => (fine i hi).mp (hall i (hrun i hi).1)
      refine ⟨⟨m, hend⟩, fun m' hend' im hcalls => ?_⟩
      have hsame : rounds mem size m' = rounds mem size m := by
        rcases Nat.le_total m m' with h | h
        · exact rounds_stopped hend h
        · exact (rounds_stopped hend' h).symm
      rw [hsame] at hcalls
      obtain ⟨ht, hs⟩ := htrail.calls hcalls
      rw [hsize] at hs
      refine ⟨(ht.scans_iff (Nat.zero_le _)).mpr fun j _ hj => hs ▸ hin j hj, fun p hp => ?_⟩
      obtain ⟨i, hi, rfl⟩ := ht.visits hp
      refine ((ht.cut hi).scans_iff (Nat.le_of_lt hi)).mpr fun j _ hj => ?_
      rw [cut_size, hs]
      exact hin j hj

end Scannable

def endlessImage : Block :=
  ((Block.zero.wrBytes 0 [0x61]).wrBytes Ustar.size
    [0x33, 0x37, 0x37, 0x37, 0x37, 0x37, 0x37, 0x37, 0x30, 0x30, 0x30]).wrBytes Ustar.magic TMAGIC

/-- The sum wraps around to a step of zero, and `initrd_init` does not return. -/
theorem endless_scan : endlessImage.rdBytes Ustar.magic 8 = TMAGIC ∧ ∀ n, Active (rounds endlessImage 512 n) := by
  have hz : (rounds endlessImage 512 0).1.stepAt (rounds endlessImage 512 0).2 = 0 := by decide +kernel
  have hs : ¬(rounds endlessImage 512 0).1.Slashes (rounds endlessImage 512 0).2 := by
    unfold Slashes
    decide +kernel
  exact ⟨by decide, rounds_stuck hz hs⟩

end Image

end Novino.Initrd
