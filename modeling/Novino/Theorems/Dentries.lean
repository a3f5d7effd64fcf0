import Novino.Theorems.Edits
import Novino.Lib.Counts

/-! The dentry cache as a tree: every edit keeps it one. -/

namespace Novino.Vfs
open Chains Counts
open State (purged)
open Ext2 (Name)

variable (d : Dentry)

def Dentry.tally (positive : Bool) : Nat := if positive then d.positive else d.negative

theorem Dentry.tally_count (a b : Bool) : (d.count a).tally b = d.tally b + if a = b then 1 else 0 := by
  cases a <;> cases b <;> simp [tally, count]

theorem Dentry.tally_uncount (a b : Bool) :
    (d.uncount a).tally b = if a = b then dec (d.tally b) else d.tally b := by
  cases a <;> cases b <;> simp [tally, uncount]

/-- What a dentry is in the tree: everything but the flag, the references and the contents of its inode. -/
def Dentry.shape : Dentry :=
    { d with cached := false, numfd := 0, inode := d.inode.map fun _ => Inode.zero }

section Shape
variable {x y : Dentry} (h : x.shape = y.shape)
include h

theorem Dentry.shape_name : x.name = y.name := by injection h
theorem Dentry.shape_parent : x.parent = y.parent := by injection h
theorem Dentry.shape_mp : x.mp = y.mp := by injection h
theorem Dentry.shape_children : x.children = y.children := by injection h

theorem Dentry.shape_tally (b : Bool) : x.tally b = y.tally b := by
  have hp : x.positive = y.positive := by injection h
  have hn : x.negative = y.negative := by injection h
  rw [Dentry.tally, Dentry.tally, hp, hn]

theorem Dentry.shape_isPositive : x.isPositive = y.isPositive := by
  have hi := congrArg (fun d => d.inode.isSome) h
  simpa [Dentry.shape, Dentry.isPositive] using hi

end Shape

section Tree
variable {Φ : Type} {s s' : State Φ} {parent dp src dst : Nat} {name : Name} {ip : Option Inode} {d n x : Nat}
  {mp : Mount}

def State.up (s : State Φ) (d : Nat) : Nat := (s.dentry d).parent

/-- The dentries in use form a tree: each one that is not the root of a mount is in the child list of its parent and in
no other, every chain of parents ends in the root, siblings have different names that fit, every dentry counts its
children and only positive ones have positive children. -/
structure Linked (s : State Φ) : Prop where
  root_live : s.live root = true
  root_up : s.up root = root
  root_mp : (s.dentry root).mp = root
  root_positive : s.isPositive root = true
  bound : ∀ d, s.live d = true → d < s.fresh
  child : ∀ d, s.live d = true → ∀ c ∈ (s.dentry d).children,
    s.live c = true ∧ s.up c = d ∧ (s.dentry c).mp = (s.dentry d).mp ∧ (s.dentry c).mp ≠ c
  listed : ∀ c, s.live c = true → (s.dentry c).mp ≠ c → s.live (s.up c) = true ∧ c ∈ (s.dentry (s.up c)).children
  nodup : ∀ d, s.live d = true → (s.dentry d).children.Nodup
  names : ∀ d, s.live d = true → ∀ a ∈ (s.dentry d).children, ∀ b ∈ (s.dentry d).children,
    (s.dentry a).name = (s.dentry b).name → a = b
  tally : ∀ d, s.live d = true → ∀ b,
    (s.dentry d).tally b = (s.dentry d).children.countP fun c => s.isPositive c == b
  mount : ∀ d, s.live d = true → s.live (s.dentry d).mp = true ∧ (s.dentry (s.dentry d).mp).mp = (s.dentry d).mp
  mounts : ∀ m ∈ s.mpl, s.live m.dentry = true ∧ (s.dentry m.dentry).mp = m.dentry ∧ s.up m.dentry = root ∧
    s.isPositive m.dentry = true ∧ m.dentry ≠ root
  mounted : ∀ d, s.live d = true → (s.dentry d).mp = d → d = root ∨ ∃ m ∈ s.mpl, m.dentry = d
  distinct : (s.mpl.map (·.dentry)).Nodup ∧ (s.mpl.map (·.name)).Nodup
  climbs : ∀ d, s.live d = true → Below s.up root d
  above : ∀ d, s.live d = true → s.isPositive d = true → s.isPositive (s.up d) = true
  short : ∀ d, s.live d = true → (s.dentry d).mp ≠ d → (s.dentry d).name.length < MAX_LFN

theorem Linked.up_live (h : Linked s) (hd : s.live d = true) : s.live (s.up d) = true := by
  by_cases hm : (s.dentry d).mp = d
  · rcases h.mounted d hd hm with rfl | ⟨m, hmem, rfl⟩
    · rw [h.root_up]
      exact h.root_live
    · rw [(h.mounts m hmem).2.2.1]
      exact h.root_live
  · exact (h.listed d hd hm).1

theorem Linked.below_live (h : Linked s) {e : Nat} (hd : s.live d = true) (he : Below s.up e d) :
    s.live e = true := by
  obtain ⟨n, rfl⟩ := he
  induction n generalizing d with
  | zero => exact hd
  | succ n ih => exact ih (h.up_live hd)

theorem Linked.up_ne (h : Linked s) (hd : s.live d = true) (hm : (s.dentry d).mp ≠ d) : s.up d ≠ d := by
  intro heq
  have hroot : d = root := by
    obtain ⟨n, hn⟩ := h.climbs d hd
    rwa [Function.iterate_fixed heq] at hn
  exact hm (hroot ▸ h.root_mp)

theorem Linked.negative_inner (h : Linked s) (hd : s.live d = true) (hn : s.isPositive d = false) :
    (s.dentry d).mp ≠ d := by
  intro hm
  rcases h.mounted d hd hm with rfl | ⟨m, hmem, rfl⟩
  · exact absurd (hn.symm.trans h.root_positive) (by decide)
  · exact absurd (hn.symm.trans (h.mounts m hmem).2.2.2.1) (by decide)

structure SameLinks (s s' : State Φ) : Prop where
  live : s'.live = s.live
  fresh : s'.fresh = s.fresh
  mpl : s'.mpl = s.mpl
  name : ∀ d, (s'.dentry d).name = (s.dentry d).name
  up : ∀ d, s'.up d = s.up d
  mp : ∀ d, (s'.dentry d).mp = (s.dentry d).mp
  children : ∀ d, (s'.dentry d).children = (s.dentry d).children

theorem Linked.relink (h : Linked s) (hs : SameLinks s s')
    (hpos : ∀ d, (s.dentry d).mp = d → s'.isPositive d = s.isPositive d)
    (htally : ∀ d, s.live d = true → ∀ b,
      (s'.dentry d).tally b = (s.dentry d).children.countP fun c => s'.isPositive c == b)
    (habove : ∀ d, s.live d = true → s'.isPositive d = true → s'.isPositive (s.up d) = true) : Linked s' := by
  have hup : s'.up = s.up := funext hs.up
  constructor <;> try simp only [hs.live, hs.fresh, hs.mpl, hs.name, hup, hs.mp, hs.children]
  · exact h.root_live
  · exact h.root_up
  · exact h.root_mp
  · rw [hpos root h.root_mp]
    exact h.root_positive
  · exact h.bound
  · exact h.child
  · exact h.listed
  · exact h.nodup
  · exact h.names
  · exact htally
  · exact h.mount
  · intro m hm
    rw [hpos m.dentry (h.mounts m hm).2.1]
    exact h.mounts m hm
  · exact h.mounted
  · exact h.distinct
  · exact h.climbs
  · exact habove
  · exact h.short

structure SameShape (s s' : State Φ) : Prop where
  live : s'.live = s.live
  fresh : s'.fresh = s.fresh
  mpl : s'.mpl = s.mpl
  shape : ∀ d, (s'.dentry d).shape = (s.dentry d).shape

theorem SameShape.isPositive (h : SameShape s s') : s'.isPositive = s.isPositive :=
  funext fun d => Dentry.shape_isPositive (h.shape d)

theorem Linked.congr (h : Linked s) (hs : SameShape s s') : Linked s' := by
  refine h.relink ⟨hs.live, hs.fresh, hs.mpl, fun d => Dentry.shape_name (hs.shape d),
    fun d => Dentry.shape_parent (hs.shape d), fun d => Dentry.shape_mp (hs.shape d),
    fun d => Dentry.shape_children (hs.shape d)⟩ (fun d _ => by rw [hs.isPositive]) (fun d hd b => ?_) ?_
  · rw [Dentry.shape_tally (hs.shape d), hs.isPositive]
    exact h.tally d hd b
  · rw [hs.isPositive]
    exact h.above

theorem Appended.kept (ha : Appended s parent name ip s') (hd : d ≠ s.fresh) :
    (s'.dentry d).name = (s.dentry d).name ∧ s'.up d = s.up d ∧ (s'.dentry d).mp = (s.dentry d).mp ∧
      s'.isPositive d = s.isPositive d := by
  by_cases hdp : d = parent
  · subst hdp
    rw [State.up, State.isPositive, ha.folder]
    unfold Dentry.count
    split <;> exact ⟨rfl, rfl, rfl, rfl⟩
  · rw [State.up, State.isPositive, ha.other d hd hdp]
    exact ⟨rfl, rfl, rfl, rfl⟩

/-- A leaf is added: what was there is as it was, but for the child list of the dentry that lists the leaf. -/
structure NewLeaf (s s' : State Φ) : Prop where
  live : ∀ {d}, s'.live d = true ↔ d = s.fresh ∨ s.live d = true
  fresh : s'.fresh = s.fresh + 1
  kept : ∀ {d}, d ≠ s.fresh → (s'.dentry d).name = (s.dentry d).name ∧ s'.up d = s.up d ∧
    (s'.dentry d).mp = (s.dentry d).mp ∧ s'.isPositive d = s.isPositive d
  leaf : (s'.dentry s.fresh).children = [] ∧ ∀ b, (s'.dentry s.fresh).tally b = 0
  folder : s.live (s'.up s.fresh) = true ∧ s.isPositive (s'.up s.fresh) = true
  children : ∀ {d}, s.live d = true →
    (s'.dentry d).children = (s.dentry d).children ∧ (∀ b, (s'.dentry d).tally b = (s.dentry d).tally b) ∨
    d = s'.up s.fresh ∧ (s'.dentry s.fresh).mp ≠ s.fresh ∧ (s'.dentry d).children = s.fresh :: (s.dentry d).children ∧
      ∀ b, (s'.dentry d).tally b = (s.dentry d).tally b + if s'.isPositive s.fresh == b then 1 else 0
  inner : (s'.dentry s.fresh).mp ≠ s.fresh → s.fresh ∈ (s'.dentry (s'.up s.fresh)).children ∧
    (s'.dentry s.fresh).mp = (s.dentry (s'.up s.fresh)).mp ∧ (s'.dentry s.fresh).name.length < MAX_LFN ∧
      ∀ c ∈ (s.dentry (s'.up s.fresh)).children, (s.dentry c).name ≠ (s'.dentry s.fresh).name
  mounts : ∀ m ∈ s'.mpl, m ∈ s.mpl ∨ m.dentry = s.fresh ∧ (s'.dentry s.fresh).mp = s.fresh ∧
    s'.up s.fresh = root ∧ s'.isPositive s.fresh = true
  mounted : s.mpl ⊆ s'.mpl ∧ ((s'.dentry s.fresh).mp = s.fresh → ∃ m ∈ s'.mpl, m.dentry = s.fresh)
  distinct : (s'.mpl.map (·.dentry)).Nodup ∧ (s'.mpl.map (·.name)).Nodup

theorem Linked.grow (h : Linked s) (hg : NewLeaf s s') : Linked s' := by
  have hold : ∀ {d}, s.live d = true → d ≠ s.fresh := fun hd => Nat.ne_of_lt (h.bound _ hd)
  have hin : ∀ {d}, s.live d = true → s'.live d = true := fun hd => hg.live.mpr (.inr hd)
  have hkept := fun {d} (hd : s.live d = true) => hg.kept (hold hd)
  have hkids : ∀ {d c}, s.live d = true → c ∈ (s.dentry d).children → s.live c = true :=
    fun hd hc => (h.child _ hd _ hc).1
  constructor
  · exact hin h.root_live
  · rw [(hkept h.root_live).2.1]
    exact h.root_up
  · rw [(hkept h.root_live).2.2.1]
    exact h.root_mp
  · rw [(hkept h.root_live).2.2.2]
    exact h.root_positive
  · intro d hd
    rw [hg.fresh]
    rcases hg.live.mp hd with rfl | hd
    · exact Nat.lt_succ_self _
    · exact Nat.lt_succ_of_lt (h.bound d hd)
  · intro d hd c hc
    rcases hg.live.mp hd with rfl | hd
    · rw [hg.leaf.1] at hc
      cases hc
    · have old : c ∈ (s.dentry d).children → s'.live c = true ∧ s'.up c = d ∧
          (s'.dentry c).mp = (s'.dentry d).mp ∧ (s'.dentry c).mp ≠ c := fun hc => by
        obtain ⟨h₁, h₂, h₃, h₄⟩ := h.child d hd c hc
        obtain ⟨-, k₁, k₂, -⟩ := hkept h₁
        rw [k₁, k₂, (hkept hd).2.2.1]
        exact ⟨hin h₁, h₂, h₃, h₄⟩
      rcases hg.children hd with ⟨hsame, -⟩ | ⟨rfl, hm, hcons, -⟩
      · exact old (hsame ▸ hc)
      · rw [hcons] at hc
        rcases List.mem_cons.mp hc with rfl | hc
        · rw [(hkept hd).2.2.1]
          exact ⟨hg.live.mpr (.inl rfl), rfl, (hg.inner hm).2.1, hm⟩
        · exact old hc
  · intro c hc hm
    rcases hg.live.mp hc with rfl | hc
    · exact ⟨hin hg.folder.1, (hg.inner hm).1⟩
    · obtain ⟨-, k₁, k₂, -⟩ := hkept hc
      rw [k₂] at hm
      obtain ⟨h₁, h₂⟩ := h.listed c hc hm
      rw [k₁]
      refine ⟨hin h₁, ?_⟩
      rcases hg.children h₁ with ⟨hsame, -⟩ | ⟨-, -, hcons, -⟩
      · exact hsame ▸ h₂
      · exact hcons ▸ List.mem_cons_of_mem _ h₂
  · intro d hd
    rcases hg.live.mp hd with rfl | hd
    · rw [hg.leaf.1]
      exact List.nodup_nil
    · rcases hg.children hd with ⟨hsame, -⟩ | ⟨-, -, hcons, -⟩
      · exact hsame ▸ h.nodup d hd
      · rw [hcons]
        exact List.nodup_cons.mpr ⟨fun hmem => hold (hkids hd hmem) rfl, h.nodup d hd⟩
  · intro d hd
    rcases hg.live.mp hd with rfl | hd
    · rw [hg.leaf.1]
      exact fun a ha => by cases ha
    · have hname : ∀ c ∈ (s.dentry d).children, (s'.dentry c).name = (s.dentry c).name := fun c hc =>
        (hkept (hkids hd hc)).1
      have old : ∀ a ∈ (s.dentry d).children, ∀ b ∈ (s.dentry d).children,
          (s'.dentry a).name = (s'.dentry b).name → a = b := fun a ha b hb hab =>
        h.names d hd a ha b hb (by rwa [hname a ha, hname b hb] at hab)
      rcases hg.children hd with ⟨hsame, -⟩ | ⟨rfl, hm, hcons, -⟩
      · exact hsame ▸ old
      · rw [hcons]
        have hnew : ∀ c ∈ (s.dentry (s'.up s.fresh)).children, (s'.dentry c).name ≠ (s'.dentry s.fresh).name :=
          fun c hc => hname c hc ▸ (hg.inner hm).2.2.2 c hc
        intro a ha b hb hab
        rcases List.mem_cons.mp ha with rfl | ha <;> rcases List.mem_cons.mp hb with rfl | hb
        · rfl
        · exact absurd hab.symm (hnew b hb)
        · exact absurd hab (hnew a ha)
        · exact old a ha b hb hab
  · intro d hd b
    rcases hg.live.mp hd with rfl | hd
    · rw [hg.leaf.1, hg.leaf.2]
      rfl
    · have hcount : ((s.dentry d).children.countP fun c => s'.isPositive c == b) = (s.dentry d).tally b := by
        rw [h.tally d hd b]
        exact List.countP_congr fun c hc => by rw [(hkept (hkids hd hc)).2.2.2]
      rcases hg.children hd with ⟨hsame, htally⟩ | ⟨-, -, hcons, htally⟩
      · rw [hsame, htally, hcount]
      · rw [hcons, htally, List.countP_cons, hcount]
  · intro d hd
    have old : ∀ {d}, s.live d = true → s'.live (s.dentry d).mp = true ∧
        (s'.dentry (s.dentry d).mp).mp = (s.dentry d).mp := fun hd => by
      obtain ⟨h₁, h₂⟩ := h.mount _ hd
      rw [(hkept h₁).2.2.1]
      exact ⟨hin h₁, h₂⟩
    rcases hg.live.mp hd with rfl | hd
    · by_cases hm : (s'.dentry s.fresh).mp = s.fresh
      · rw [hm]
        exact ⟨hd, hm⟩
      · rw [(hg.inner hm).2.1]
        exact old hg.folder.1
    · rw [(hkept hd).2.2.1]
      exact old hd
  · intro m hm
    rcases hg.mounts m hm with hm | ⟨heq, h₁, h₂, h₃⟩
    · obtain ⟨h₁, h₂, h₃, h₄⟩ := h.mounts m hm
      obtain ⟨-, k₁, k₂, k₃⟩ := hkept h₁
      rw [k₁, k₂, k₃]
      exact ⟨hin h₁, h₂, h₃, h₄⟩
    · rw [heq]
      exact ⟨hg.live.mpr (.inl rfl), h₁, h₂, h₃, (hold h.root_live).symm⟩
  · intro d hd hm
    rcases hg.live.mp hd with rfl | hd
    · exact .inr (hg.mounted.2 hm)
    · rw [(hkept hd).2.2.1] at hm
      exact (h.mounted d hd hm).imp_right fun ⟨m, hmem, heq⟩ => ⟨m, hg.mounted.1 hmem, heq⟩
  · exact hg.distinct
  · -- old chains do not meet the new dentry
    have old : ∀ d, s.live d = true → Below s'.up root d := fun d hd =>
      (h.climbs d hd).congr fun e he _ => (hkept (h.below_live hd he)).2.1
    intro d hd
    rcases hg.live.mp hd with rfl | hd
    · exact Below.step (old _ hg.folder.1)
    · exact old d hd
  · intro d hd hpos
    rcases hg.live.mp hd with rfl | hd
    · rw [(hkept hg.folder.1).2.2.2]
      exact hg.folder.2
    · rw [(hkept hd).2.2.2] at hpos
      rw [(hkept hd).2.1, (hkept (h.up_live hd)).2.2.2]
      exact h.above d hd hpos
  · intro d hd hm
    rcases hg.live.mp hd with rfl | hd
    · exact (hg.inner hm).2.2.1
    · rw [(hkept hd).2.2.1] at hm
      rw [(hkept hd).1]
      exact h.short d hd hm

theorem Linked.append (h : Linked s) (ha : Appended s parent name ip s') (hv : s.Valid parent)
    (hn : name.length < MAX_LFN) (hnew : ∀ c ∈ (s.dentry parent).children, (s.dentry c).name ≠ name) : Linked s' := by
  have hitem : s'.dentry s.fresh =
      { Dentry.zero with name, mp := (s.dentry parent).mp, parent, inode := (s'.dentry s.fresh).inode } := by
    rw [ha.item, State.newDentry, setName_short _ hn]
  have hipos : s'.isPositive s.fresh = ip.isSome := by
    rw [State.isPositive, ha.item]
    simp [State.newDentry, Dentry.isPositive]
  have hiup : s'.up s.fresh = parent := by rw [State.up, hitem]
  have himp : (s'.dentry s.fresh).mp = (s.dentry parent).mp := by rw [hitem]
  have hinner : (s'.dentry s.fresh).mp ≠ s.fresh := himp ▸ Nat.ne_of_lt (h.bound _ (h.mount parent hv.live).1)
  refine h.grow
    { live := fun {d} => ?_, fresh := ha.fresh, kept := ha.kept, leaf := ?_, folder := ?_, children := fun {d} hd => ?_,
      inner := fun _ => ?_, mounts := fun m hm => .inl (ha.mpl ▸ hm),
      mounted := ⟨(ha.mpl ▸ List.Subset.refl _), fun hm => absurd hm hinner⟩, distinct := ha.mpl ▸ h.distinct }
  · rw [ha.live, Function.update_apply]
    split <;> simp [*]
  · rw [hitem]
    exact ⟨rfl, fun b => by cases b <;> rfl⟩
  · rw [hiup]
    exact ⟨hv.live, hv.positive⟩
  · by_cases hd' : d = parent
    · refine .inr ⟨hd'.trans hiup.symm, hinner, by rw [hd', ha.folder], fun b => ?_⟩
      rw [hd', ha.folder, hipos]
      show ((s.dentry parent).count ip.isSome).tally b = _
      rw [Dentry.tally_count]
      simp
    · rw [ha.other d (Nat.ne_of_lt (h.bound d hd)) hd']
      exact .inl ⟨rfl, fun _ => rfl⟩
  · rw [hiup, ha.folder, hitem]
    exact ⟨List.mem_cons_self, rfl, hn, hnew⟩

/-! ### An entry is made or dropped -/

section
variable (hf : Flipped s dp ip s') {d : Nat}
include hf

theorem Flipped.kept (d : Nat) : (s'.dentry d).name = (s.dentry d).name ∧ s'.up d = s.up d ∧
    (s'.dentry d).mp = (s.dentry d).mp ∧ (s'.dentry d).children = (s.dentry d).children ∧
      (s'.dentry d).numfd = (s.dentry d).numfd := by
  rw [State.up, State.up]
  by_cases hdd : d = dp
  · rw [hdd, hf.item]
    exact ⟨rfl, rfl, rfl, rfl, rfl⟩
  · by_cases hp : d = (s.dentry dp).parent
    · rw [hp, hf.folder]
      simp
    · rw [hf.other d hdd hp]
      exact ⟨rfl, rfl, rfl, rfl, rfl⟩

theorem Flipped.cached_eq (d : Nat) : (s'.dentry d).cached = (s.dentry d).cached := by
  by_cases hdd : d = dp
  · rw [hdd, hf.item]
  · by_cases hp : d = (s.dentry dp).parent
    · rw [hp, hf.folder]
      simp
    · rw [hf.other d hdd hp]

theorem Flipped.inode_ne (hd : d ≠ dp) :
    (s'.dentry d).inode = (s.dentry d).inode := by
  by_cases hp : d = (s.dentry dp).parent
  · rw [hp, hf.folder]
    simp
  · rw [hf.other d hd hp]

theorem Flipped.isPositive_ne (hd : d ≠ dp) : s'.isPositive d = s.isPositive d :=
  congrArg Option.isSome (hf.inode_ne hd)

theorem Flipped.isPositive_self : s'.isPositive dp = ip.isSome := by
  rw [State.isPositive, hf.item]
  rfl

end

section
variable (h : Linked s) (hf : Flipped s dp ip s') (hd : s.live dp = true) (hm : (s.dentry dp).mp ≠ dp)
  (hpos : s.isPositive dp = !ip.isSome)
include h hf hd hm hpos

theorem Linked.flip_tally {d : Nat} (hdl : s.live d = true) (b : Bool) :
    (s'.dentry d).tally b = (s.dentry d).children.countP fun c => s'.isPositive c == b := by
  by_cases hp : d = s.up dp
  · subst hp
    obtain ⟨-, hmem⟩ := h.listed dp hd hm
    have hcount := countP_change (p := fun c => s.isPositive c == b) (q := fun c => s'.isPositive c == b)
      (h.nodup _ hdl) hmem fun y _ hy => by rw [hf.isPositive_ne hy]
    have htally := h.tally _ hdl b
    rw [show s'.dentry (s.up dp) = _ from hf.folder, Dentry.tally_count, Dentry.tally_uncount]
    rw [hf.isPositive_self, hpos, ← htally] at hcount
    cases hi : ip.isSome <;> cases b <;> simp only [hi, State.up] at hcount htally ⊢ <;>
      simp at hcount ⊢ <;> first | omega | (rw [dec]; split <;> omega)
  · have hout : ∀ c ∈ (s.dentry d).children, s'.isPositive c = s.isPositive c := fun c hc =>
      hf.isPositive_ne fun heq => hp (by rw [← heq, (h.child d hdl c hc).2.1])
    rw [List.countP_congr fun c hc => by rw [hout c hc], ← h.tally d hdl b]
    by_cases hdd : d = dp
    · rw [hdd, hf.item]
      rfl
    · rw [hf.other d hdd hp]

theorem Linked.flip (hup : ip.isSome = true → s.isPositive (s.up dp) = true)
    (hempty : ip.isSome = false → ∀ c ∈ (s.dentry dp).children, s.isPositive c = false) : Linked s' := by
  refine h.relink ⟨hf.live, hf.fresh, hf.mpl, fun d => (hf.kept d).1, fun d => (hf.kept d).2.1,
    fun d => (hf.kept d).2.2.1, fun d => (hf.kept d).2.2.2.1⟩
    (fun d hmd => hf.isPositive_ne fun heq => hm (heq ▸ hmd))
      (fun d => h.flip_tally hf hd hm hpos) fun d hdl hposd => ?_
  by_cases hdd : d = dp
  · rw [hdd, hf.isPositive_self] at hposd
    rw [hdd, hf.isPositive_ne (h.up_ne hd hm)]
    exact hup hposd
  · rw [hf.isPositive_ne hdd] at hposd
    by_cases hud : s.up d = dp
    · -- the dentry is a positive child of the one that changes, which therefore stays positive
      rw [hud, hf.isPositive_self]
      by_contra hi
      have hinner : (s.dentry d).mp ≠ d := fun hmd => by
        rcases h.mounted d hdl hmd with rfl | ⟨m, hmem, rfl⟩
        · exact hm (hud ▸ h.root_up.symm ▸ h.root_mp)
        · exact hm (hud ▸ (h.mounts m hmem).2.2.1.symm ▸ h.root_mp)
      have hneg := hempty (Bool.eq_false_of_not_eq_true hi) d (hud ▸ (h.listed d hdl hinner).2)
      exact absurd (hneg.symm.trans hposd) (by decide)
    · rw [hf.isPositive_ne hud]
      exact h.above d hdl hposd

end

/-! ### A dentry takes the place of another one -/

/-- What a rename relies on: two entries of one mount, the replaced one without children and not below the other. -/
structure State.Movable (s : State Φ) (src dst : Nat) : Prop where
  moved : s.Entry src
  replaced : s.Entry dst
  ne : src ≠ dst
  positive : s.isPositive src = true
  mount : (s.dentry src).mp = (s.dentry dst).mp
  above : ¬Below s.up src (s.up dst)
  alone : (s.dentry dst).children = []
  folder : s.isPositive (s.up dst) = true

theorem RenameCall.movable {r : Φ × Int × Inode} (hc : RenameCall s src dst r) (h : Linked s) : s.Movable src dst where
  moved := hc.moved
  replaced := hc.replaced
  ne := hc.ne
  positive := hc.positive
  mount := hc.mount
  above := hc.above
  alone := hc.alone
  folder := by
    cases hd : s.isPositive dst with
    | true => exact h.above dst hc.replaced.live hd
    | false => exact (hc.folder hd).positive

section Rename
variable {ip : Inode} (h : Linked s) (hc : s.Movable src dst) {d : Nat}
include h hc

omit h in
theorem State.Movable.folder_ne : s.up dst ≠ src := fun heq => hc.above (heq ▸ Below.refl s.up _)

theorem Linked.source_ne : s.up src ≠ dst := fun heq => by
  have hmem := (h.listed src hc.moved.live hc.moved.inner).2
  rw [heq, hc.alone] at hmem
  cases hmem

def State.staying (s : State Φ) (src dst d : Nat) : List Nat := ((s.dentry d).children.erase src).erase dst

omit hc in
theorem Linked.mem_staying {c : Nat} (hd : s.live d = true) :
    c ∈ s.staying src dst d ↔ c ∈ (s.dentry d).children ∧ c ≠ src ∧ c ≠ dst := by
  rw [State.staying, ((h.nodup d hd).erase src).mem_erase_iff, (h.nodup d hd).mem_erase_iff]
  tauto

theorem Linked.countP_staying (p : Nat → Bool) (hd : s.live d = true) :
    (s.dentry d).children.countP p = (s.staying src dst d).countP p +
      (if d = s.up src then (p src).toNat else 0) + if d = s.up dst then (p dst).toNat else 0 := by
  have hsrc : src ∈ (s.dentry d).children ↔ d = s.up src :=
    ⟨fun hm => (h.child d hd src hm).2.1.symm, fun hm => hm ▸ (h.listed src hc.moved.live hc.moved.inner).2⟩
  have hdst : dst ∈ (s.dentry d).children ↔ d = s.up dst :=
    ⟨fun hm => (h.child d hd dst hm).2.1.symm, fun hm => hm ▸ (h.listed dst hc.replaced.live hc.replaced.inner).2⟩
  have erased : ∀ (l : List Nat) x, l.countP p = (l.erase x).countP p + if x ∈ l then (p x).toNat else 0 := by
    intro l x
    split
    · rename_i hx
      rw [(List.perm_cons_erase hx).countP_eq, List.countP_cons]
      cases p x <;> rfl
    · rename_i hx
      rw [List.erase_of_not_mem hx, Nat.add_zero]
  rw [erased _ src, erased (List.erase _ _) dst, State.staying]
  simp only [(h.nodup d hd).mem_erase_iff, hsrc, hdst, hc.ne.symm, ne_eq, not_false_eq_true, true_and]
  omega

variable (hr : Renamed s src dst ip s')
include hr

omit h hc in
theorem Renamed.kept (hd : d ≠ src) :
    (s'.dentry d).name = (s.dentry d).name ∧ s'.up d = s.up d ∧ (s'.dentry d).mp = (s.dentry d).mp ∧
      s'.isPositive d = s.isPositive d := by
  rw [State.up, State.isPositive, hr.folder d hd]
  dsimp only
  split <;> split <;> simp [State.up, State.isPositive, Dentry.isPositive]

omit h hc in
theorem Renamed.inode_ne (hd : d ≠ src) : (s'.dentry d).inode = (s.dentry d).inode := by
  rw [hr.folder d hd]
  dsimp only
  split <;> split <;> simp

omit h hc in
theorem Renamed.cached_eq (d : Nat) : (s'.dentry d).cached = (s.dentry d).cached := by
  by_cases hd : d = src
  · rw [hd, hr.item]
  · rw [hr.folder d hd]
    dsimp only
    split <;> split <;> simp

omit h hc in
theorem Renamed.mp_eq (d : Nat) : (s'.dentry d).mp = (s.dentry d).mp := by
  by_cases hd : d = src
  · rw [hd, hr.item]
  · exact (hr.kept hd).2.2.1

omit h hc in
theorem Renamed.live_iff : s'.live d = true ↔ s.live d = true ∧ d ≠ dst := by
  rw [hr.live, Function.update_apply]
  split <;> simp [*]

omit h in
theorem Renamed.isPositive_eq (d : Nat) : s'.isPositive d = s.isPositive d := by
  by_cases hd : d = src
  · rw [hd, hc.positive, State.isPositive, hr.item]
    rfl
  · exact (hr.kept hd).2.2.2

omit h hc in
theorem Renamed.children (hd : d ≠ src) : (s'.dentry d).children =
    if d = s.up dst then
      (src :: if d = s.up src then (s.dentry d).children.erase src else (s.dentry d).children).erase dst
    else if d = s.up src then (s.dentry d).children.erase src else (s.dentry d).children := by
  rw [hr.folder d hd]
  dsimp only [State.up]
  rcases Classical.propComplete (d = (s.dentry dst).parent) with hq | hq <;>
    rcases Classical.propComplete (d = (s.dentry src).parent) with hp | hp <;> simp [hq, hp]

omit h hc in
theorem Renamed.tally (hd : d ≠ src) (b : Bool) : (s'.dentry d).tally b =
    let n := if d = s.up src ∧ b = true then dec ((s.dentry d).tally b) else (s.dentry d).tally b
    let n' := if d = s.up dst ∧ b = true then n + 1 else n
    if d = s.up dst ∧ b = s.isPositive dst then dec n' else n' := by
  rw [hr.folder d hd]
  dsimp only [State.up]
  rcases Classical.propComplete (d = (s.dentry dst).parent) with hq | hq <;>
    rcases Classical.propComplete (d = (s.dentry src).parent) with hp | hp <;>
    simp only [hq, hp, if_true, if_false, true_and, false_and] <;> cases b <;> cases s.isPositive dst <;>
    simp [Dentry.tally, Dentry.count, Dentry.uncount]

theorem Linked.renamed_children (hd : s.live d = true) : (s'.dentry d).children =
    if d = s.up dst then src :: s.staying src dst d else s.staying src dst d := by
  have hout : ∀ {x}, x ∈ (s.dentry d).children → s.up x = d := fun hx => (h.child d hd _ hx).2.1
  by_cases hds : d = src
  · subst hds
    rw [if_neg hc.folder_ne.symm, hr.item, State.staying,
      List.erase_of_not_mem (a := d) fun hx => h.up_ne hc.moved.live hc.moved.inner (hout hx),
      List.erase_of_not_mem fun hx => hc.folder_ne (hout hx)]
  · have hbase : (s.dentry d).children.erase src =
        if d = s.up src then (s.dentry d).children.erase src else (s.dentry d).children := by
      split
      · rfl
      · rename_i hne
        exact List.erase_of_not_mem fun hx => hne (hout hx).symm
    rw [hr.children hds, State.staying, ← hbase]
    split
    · exact List.erase_cons_tail (by simpa using hc.ne)
    · rename_i hq
      exact (List.erase_of_not_mem fun hx => hq (hout (List.mem_of_mem_erase hx)).symm).symm

theorem Linked.renamed_tally (hd : s.live d = true) (b : Bool) : (s'.dentry d).tally b =
    (s'.dentry d).children.countP fun c => s.isPositive c == b := by
  have hcount := h.countP_staying hc (fun c => s.isPositive c == b) hd
  rw [← h.tally d hd b, hc.positive] at hcount
  rw [h.renamed_children hc hr hd]
  by_cases hds : d = src
  · subst hds
    rw [if_neg hc.folder_ne.symm, hr.item]
    rw [if_neg (h.up_ne hc.moved.live hc.moved.inner).symm, if_neg hc.folder_ne.symm] at hcount
    exact hcount
  · rw [hr.tally hds]
    have hsrc := hc.positive
    by_cases hq : d = s.up dst <;> by_cases hp : d = s.up src <;> cases b <;> cases hpos : s.isPositive dst <;>
      simp_all

theorem Linked.rename : Linked s' := by
  have hlive := fun {d} => hr.live_iff (d := d)
  have hname : (s'.dentry src).name = (s.dentry dst).name := by rw [hr.item]
  have hsup : s'.up src = s.up dst := by rw [State.up, hr.item]; rfl
  have hpos := hr.isPositive_eq hc
  have hmp := hr.mp_eq
  have hinner : ∀ {d}, (s.dentry d).mp = d → d ≠ src ∧ d ≠ dst := fun hd =>
    ⟨fun heq => hc.moved.inner (heq ▸ hd), fun heq => hc.replaced.inner (heq ▸ hd)⟩
  have hchildren := fun {d} => h.renamed_children hc hr (d := d)
  have hstay : ∀ {d c}, s.live d = true → (c ∈ s.staying src dst d ↔ _) := fun hd => h.mem_staying hd
  have hfolder := h.listed dst hc.replaced.live hc.replaced.inner
  constructor
  · exact hlive.mpr ⟨h.root_live, (hinner h.root_mp).2⟩
  · rw [(hr.kept (hinner h.root_mp).1).2.1]
    exact h.root_up
  · rw [hmp]
    exact h.root_mp
  · rw [hpos]
    exact h.root_positive
  · intro d hd
    rw [hr.fresh]
    exact h.bound d (hlive.mp hd).1
  · intro d hd c hm
    obtain ⟨hd, -⟩ := hlive.mp hd
    rw [hmp, hmp]
    have old : c ∈ s.staying src dst d → s'.live c = true ∧ s'.up c = d ∧ (s.dentry c).mp = (s.dentry d).mp ∧
        (s.dentry c).mp ≠ c := fun hm => by
      obtain ⟨hm, hcs, hcd⟩ := (hstay hd).mp hm
      obtain ⟨h₁, h₂, h₃⟩ := h.child d hd c hm
      rw [(hr.kept hcs).2.1]
      exact ⟨hlive.mpr ⟨h₁, hcd⟩, h₂, h₃⟩
    rw [hchildren hd] at hm
    split at hm
    · rename_i heq
      rcases List.mem_cons.mp hm with rfl | hm
      · refine ⟨hlive.mpr ⟨hc.moved.live, hc.ne⟩, hsup.trans heq.symm, ?_, hc.moved.inner⟩
        rw [hc.mount, heq, (h.child _ hfolder.1 dst hfolder.2).2.2.1]
      · exact old hm
    · exact old hm
  · intro c hl hm
    obtain ⟨hl, hcd⟩ := hlive.mp hl
    rw [hmp] at hm
    by_cases hcs : c = src
    · subst hcs
      rw [hsup, hchildren hfolder.1, if_pos rfl]
      exact ⟨hlive.mpr ⟨hfolder.1, h.up_ne hc.replaced.live hc.replaced.inner⟩, List.mem_cons_self⟩
    · obtain ⟨h₁, h₂⟩ := h.listed c hl hm
      have hne : s.up c ≠ dst := fun heq => by
        rw [heq, hc.alone] at h₂
        cases h₂
      rw [(hr.kept hcs).2.1, hchildren h₁]
      refine ⟨hlive.mpr ⟨h₁, hne⟩, ?_⟩
      have hmem := (hstay h₁).mpr ⟨h₂, hcs, hcd⟩
      split
      · exact List.mem_cons_of_mem _ hmem
      · exact hmem
  · intro d hd
    obtain ⟨hd, -⟩ := hlive.mp hd
    have hnodup : (s.staying src dst d).Nodup := ((h.nodup d hd).erase _).erase _
    rw [hchildren hd]
    split
    · exact List.nodup_cons.mpr ⟨fun hm => ((hstay hd).mp hm).2.1 rfl, hnodup⟩
    · exact hnodup
  · intro d hd a ha b hb hab
    obtain ⟨hd, -⟩ := hlive.mp hd
    -- a child that stayed and the moved one would both have the name of the replaced one
    have clash : d = s.up dst → ∀ c ∈ s.staying src dst d, (s'.dentry src).name ≠ (s'.dentry c).name := by
      intro heq c hm hn
      obtain ⟨hm, hcs, hcd⟩ := (hstay hd).mp hm
      rw [hname, (hr.kept hcs).1] at hn
      exact hcd (h.names d hd c hm dst (heq ▸ hfolder.2) hn.symm)
    have old : a ∈ s.staying src dst d → b ∈ s.staying src dst d → a = b := fun ha hb => by
      obtain ⟨ha, has, -⟩ := (hstay hd).mp ha
      obtain ⟨hb, hbs, -⟩ := (hstay hd).mp hb
      rw [(hr.kept has).1, (hr.kept hbs).1] at hab
      exact h.names d hd a ha b hb hab
    rw [hchildren hd] at ha hb
    split at ha
    · rename_i heq
      rw [if_pos heq] at hb
      rcases List.mem_cons.mp ha with rfl | ha <;> rcases List.mem_cons.mp hb with rfl | hb
      · rfl
      · exact absurd hab (clash heq b hb)
      · exact absurd hab.symm (clash heq a ha)
      · exact old ha hb
    · rename_i hne
      rw [if_neg hne] at hb
      exact old ha hb
  · intro d hd b
    rw [h.renamed_tally hc hr (hlive.mp hd).1]
    simp only [hpos]
  · intro d hd
    obtain ⟨h₁, h₂⟩ := h.mount d (hlive.mp hd).1
    rw [hmp, hmp]
    exact ⟨hlive.mpr ⟨h₁, (hinner h₂).2⟩, h₂⟩
  · intro m hm
    rw [hr.mpl] at hm
    obtain ⟨h₁, h₂, h₃, h₄, h₅⟩ := h.mounts m hm
    rw [hmp, hpos, (hr.kept (hinner h₂).1).2.1]
    exact ⟨hlive.mpr ⟨h₁, (hinner h₂).2⟩, h₂, h₃, h₄, h₅⟩
  · intro d hd hm
    rw [hmp] at hm
    rw [hr.mpl]
    exact h.mounted d (hlive.mp hd).1 hm
  · rw [hr.mpl]
    exact h.distinct
  · intro d hd
    have hup : s'.up = Function.update s.up src (s.up dst) := funext fun e => by
      rw [Function.update_apply]
      split
      · rename_i heq
        rw [heq, hsup]
      · rename_i hne
        exact (hr.kept hne).2.1
    rw [hup]
    exact (h.climbs d (hlive.mp hd).1).update (h.climbs _ hfolder.1) hc.above
  · intro d hd hposd
    rw [hpos] at hposd ⊢
    by_cases hds : d = src
    · rw [hds, hsup]
      exact hc.folder
    · rw [(hr.kept hds).2.1]
      exact h.above d (hlive.mp hd).1 hposd
  · intro d hd hm
    by_cases hds : d = src
    · rw [hds, hname]
      exact h.short dst hc.replaced.live hc.replaced.inner
    · rw [hmp] at hm
      rw [(hr.kept hds).1]
      exact h.short d (hlive.mp hd).1 hm

end Rename

theorem Linked.mountRoot (h : Linked s) {target : Name} (hn : s.findMp target = none) (fs data : Nat) (inode : Inode) :
    Linked (s.mounted target fs data inode) := by
  obtain ⟨s', hs'⟩ : ∃ s', s' = s.mounted target fs data inode := ⟨_, rfl⟩
  have hkept : ∀ {d}, d ≠ s.fresh → s'.dentry d = s.dentry d := fun hd => hs' ▸ Function.update_of_ne hd _ _
  have hitem : s'.dentry s.fresh = { Dentry.zero with
      name := target, inode := some { inode with ops := fs, data }, parent := root, mp := s.fresh } :=
    hs' ▸ Function.update_self _ _ _
  have hmpl : s'.mpl = ⟨target, s.fresh, fs⟩ :: s.mpl := hs' ▸ rfl
  have hiup : s'.up s.fresh = root := by rw [State.up, hitem]
  have himp : (s'.dentry s.fresh).mp = s.fresh := by rw [hitem]
  rw [← hs']
  refine h.grow
    { live := fun {d} => ?_, fresh := hs' ▸ rfl, kept := fun {d} hd => ?_, leaf := ?_, folder := ?_,
      children := fun {d} hd => .inl ?_, inner := fun hm => absurd himp hm, mounts := fun m hm => ?_,
      mounted := ⟨?_, fun _ => ⟨⟨target, s.fresh, fs⟩, ?_, rfl⟩⟩, distinct := ?_ }
  · rw [hs', State.mounted]
    dsimp only
    rw [Function.update_apply]
    split <;> simp [*]
  · rw [State.up, State.isPositive, hkept hd]
    exact ⟨rfl, rfl, rfl, rfl⟩
  · rw [hitem]
    exact ⟨rfl, fun b => by cases b <;> rfl⟩
  · rw [hiup]
    exact ⟨h.root_live, h.root_positive⟩
  · rw [hkept (Nat.ne_of_lt (h.bound d hd))]
    exact ⟨rfl, fun _ => rfl⟩
  · rw [hmpl] at hm
    refine (List.mem_cons.mp hm).symm.imp_right fun heq => ⟨congrArg Mount.dentry heq, himp, hiup, ?_⟩
    rw [State.isPositive, hitem]
    rfl
  · exact hmpl ▸ List.subset_cons_self _ _
  · exact hmpl ▸ List.mem_cons_self
  · rw [hmpl]
    have hname : ∀ m ∈ s.mpl, m.name ≠ target := by simpa [State.findMp] using hn
    refine ⟨List.nodup_cons.mpr ⟨fun hmem => ?_, h.distinct.1⟩, List.nodup_cons.mpr ⟨fun hmem => ?_, h.distinct.2⟩⟩
    · obtain ⟨m, hm, heq⟩ := List.mem_map.mp hmem
      exact Nat.ne_of_lt (h.bound _ (h.mounts m hm).1) heq
    · obtain ⟨m, hm, heq⟩ := List.mem_map.mp hmem
      exact hname m hm heq

theorem purged_child (dentry : Nat → Dentry) {c : Nat} (hx : x ∈ purged dentry n d)
    (hc : c ∈ (dentry x).children) : c ∈ purged dentry (n + 1) d := by
  induction n generalizing d with
  | zero => cases hx
  | succ n ih =>
    rw [purged, List.mem_append, List.mem_flatMap] at hx ⊢
    left
    rcases hx with ⟨e, he, hx⟩ | hx
    · exact ⟨e, he, ih hx⟩
    · refine ⟨x, hx, ?_⟩
      rw [purged, List.mem_append]
      exact .inr hc

theorem Linked.purged_mount (h : Linked s) (hd : s.live d = true) (hx : x ∈ purged s.dentry n d) :
    s.live x = true ∧ (s.dentry x).mp = (s.dentry d).mp ∧ (s.dentry x).mp ≠ x := by
  induction n generalizing d with
  | zero => cases hx
  | succ n ih =>
    rw [purged, List.mem_append, List.mem_flatMap] at hx
    rcases hx with ⟨c, hc, hx⟩ | hx
    · obtain ⟨h₁, -, h₃, -⟩ := h.child d hd c hc
      obtain ⟨k₁, k₂, k₃⟩ := ih h₁ hx
      exact ⟨k₁, k₂.trans h₃, k₃⟩
    · obtain ⟨h₁, -, h₃⟩ := h.child d hd x hx
      exact ⟨h₁, h₃⟩

/-- All its dentries are freed: no chain to the root of the mount is longer than the depth down to which `dcache_purge`
goes. -/
theorem Linked.mem_purged (h : Linked s) (hx : s.live x = true) (hm : (s.dentry x).mp ≠ x) :
    x ∈ purged s.dentry s.fresh (s.dentry x).mp := by
  obtain ⟨m, hmx⟩ : ∃ m, m = (s.dentry x).mp := ⟨_, rfl⟩
  obtain ⟨up, hup⟩ : ∃ up : Nat → Nat, up = fun d => if (s.dentry d).mp = d then d else s.up d := ⟨_, rfl⟩
  have hup_root : ∀ {d}, (s.dentry d).mp = d → up d = d := fun hd => by rw [hup]; exact if_pos hd
  have hup_inner : ∀ {d}, (s.dentry d).mp ≠ d → up d = s.up d := fun hd => by rw [hup]; exact if_neg hd
  have hmount : ∀ {d}, s.live d = true → s.live (up d) = true ∧ (s.dentry (up d)).mp = (s.dentry d).mp := by
    intro d hd
    by_cases hmd : (s.dentry d).mp = d
    · rw [hup_root hmd]
      exact ⟨hd, rfl⟩
    · obtain ⟨h₁, h₂⟩ := h.listed d hd hmd
      rw [hup_inner hmd]
      exact ⟨h₁, (h.child _ h₁ d h₂).2.2.1.symm⟩
  have hchain : ∀ n d, s.live d = true → s.live (up^[n] d) = true := by
    intro n
    induction n with
    | zero => exact fun d hd => hd
    | succ n ih => exact fun d hd => ih (up d) (hmount hd).1
  have hbelow : Below up m x := by
    have key : s.live x = true → (s.dentry x).mp = m → Below up m x := by
      refine (h.climbs x hx).induction (P := fun x => s.live x = true → (s.dentry x).mp = m → Below up m x) ?_ ?_
      · intro _ hr
        rw [← hr, h.root_mp]
        exact Below.refl _ _
      · intro y _ ih hy hym
        by_cases hmy : (s.dentry y).mp = y
        · rw [← hym, hmy]
          exact Below.refl _ _
        · obtain ⟨h₁, h₂⟩ := hmount hy
          refine Below.step ?_
          rw [hup_inner hmy] at h₁ h₂ ⊢
          exact ih h₁ (h₂.trans hym)
    exact key hx hmx.symm
  have hend := hbelow.bounded (N := s.fresh) (hup_root (hmx ▸ (h.mount x hx).2)) fun n => h.bound _ (hchain n x hx)
  have reach : ∀ n y, s.live y = true → (s.dentry y).mp ≠ y → up^[n] y = m → (s.dentry y).mp = m →
      y ∈ purged s.dentry n m := by
    intro n
    induction n with
    | zero =>
      intro y _ hmy hy hym
      exact absurd (hym.trans hy.symm) hmy
    | succ n ih =>
      intro y hy hmy hn hym
      obtain ⟨h₁, h₂⟩ := h.listed y hy hmy
      have hupm := (hmount hy).2
      rw [Function.iterate_succ_apply, hup_inner hmy] at hn
      rw [hup_inner hmy, hym] at hupm
      by_cases hmu : (s.dentry (s.up y)).mp = s.up y
      · rw [purged, List.mem_append]
        rw [hmu] at hupm
        exact .inr (hupm ▸ h₂)
      · exact purged_child _ (ih _ h₁ hmu hn hupm) h₂
  rw [← hmx]
  exact reach s.fresh x hx hm hend hmx.symm

theorem Linked.unmounted_live (h : Linked s) (hmp : mp ∈ s.mpl) :
    (s.unmounted mp).live d = true ↔ s.live d = true ∧ (s.dentry d).mp ≠ mp.dentry := by
  obtain ⟨h₁, h₂, -⟩ := h.mounts mp hmp
  show Function.update (fun x => s.live x && !(purged s.dentry s.fresh mp.dentry).contains x) mp.dentry false d =
    true ↔ _
  rw [Function.update_apply]
  split
  · rename_i heq
    simp [heq, h₂]
  · rename_i hne
    simp only [Bool.and_eq_true, Bool.not_eq_true', List.contains_eq_mem, decide_eq_false_iff_not]
    refine and_congr_right fun hd => not_congr ⟨fun hx => (h.purged_mount h₁ hx).2.1.trans h₂, fun heq => ?_⟩
    have hmem := h.mem_purged hd (heq ▸ Ne.symm hne)
    rwa [heq] at hmem

theorem Linked.unmount (h : Linked s) (hmp : mp ∈ s.mpl) : Linked (s.unmounted mp) := by
  have hlive := fun {d} => h.unmounted_live hmp (d := d)
  have hne := (h.mounts mp hmp).2.2.2.2
  have hdentry : (s.unmounted mp).dentry = s.dentry := rfl
  have hup : (s.unmounted mp).up = s.up := rfl
  have hpos : (s.unmounted mp).isPositive = s.isPositive := rfl
  have hmpl : (s.unmounted mp).mpl = s.mpl.erase mp := rfl
  have hnodup : s.mpl.Nodup := h.distinct.1.of_map _
  constructor <;> try simp only [hdentry, hup, hpos, hmpl]
  · exact hlive.mpr ⟨h.root_live, h.root_mp.trans_ne hne.symm⟩
  · exact h.root_up
  · exact h.root_mp
  · exact h.root_positive
  · exact fun d hd => h.bound d (hlive.mp hd).1
  · intro d hd c hc
    obtain ⟨hd, hm⟩ := hlive.mp hd
    obtain ⟨h₁, h₂, h₃, h₄⟩ := h.child d hd c hc
    exact ⟨hlive.mpr ⟨h₁, h₃ ▸ hm⟩, h₂, h₃, h₄⟩
  · intro c hc hi
    obtain ⟨hc, hm⟩ := hlive.mp hc
    obtain ⟨h₁, h₂⟩ := h.listed c hc hi
    exact ⟨hlive.mpr ⟨h₁, (h.child _ h₁ c h₂).2.2.1 ▸ hm⟩, h₂⟩
  · exact fun d hd => h.nodup d (hlive.mp hd).1
  · exact fun d hd => h.names d (hlive.mp hd).1
  · exact fun d hd => h.tally d (hlive.mp hd).1
  · intro d hd
    obtain ⟨hd, hm⟩ := hlive.mp hd
    obtain ⟨h₁, h₂⟩ := h.mount d hd
    exact ⟨hlive.mpr ⟨h₁, h₂.symm ▸ hm⟩, h₂⟩
  · intro m hm
    obtain ⟨hm', hm⟩ := hnodup.mem_erase_iff.mp hm
    obtain ⟨h₁, h₂, h₃⟩ := h.mounts m hm
    refine ⟨hlive.mpr ⟨h₁, fun heq => hm' ?_⟩, h₂, h₃⟩
    exact List.inj_on_of_nodup_map h.distinct.1 hm hmp (h₂.symm.trans heq)
  · intro d hd hi
    obtain ⟨hd, hm⟩ := hlive.mp hd
    refine (h.mounted d hd hi).imp_right fun ⟨m, hmem, heq⟩ => ⟨m, hnodup.mem_erase_iff.mpr ⟨fun h' => ?_, hmem⟩, heq⟩
    exact hm (hi.trans (heq.symm.trans (congrArg Mount.dentry h')))
  · exact ⟨h.distinct.1.sublist (List.erase_sublist.map _), h.distinct.2.sublist (List.erase_sublist.map _)⟩
  · exact fun d hd => h.climbs d (hlive.mp hd).1
  · exact fun d hd => h.above d (hlive.mp hd).1
  · exact fun d hd => h.short d (hlive.mp hd).1

theorem FileEdit.dentry_same (h : FileEdit s s') {α : Type} (f : Dentry → α) (hf : ∀ x n, f { x with numfd := n } = f x)
    (e : Nat) : f (s'.dentry e) = f (s.dentry e) := by
  cases h with
  | move | abandoned | dropped | cloned => rfl
  | opened | closed | started | ended => exact modify_same _ _ _ f (fun x => hf x _) e
  | chdir =>
    exact (modify_same (State.dentryOpen _ _) _ _ f (fun x => hf x _) e).trans (modify_same _ _ _ f (fun x => hf x _) e)

theorem FileEdit.sameShape (h : FileEdit s s') : SameShape s s' :=
  ⟨by cases h <;> rfl, by cases h <;> rfl, by cases h <;> rfl, h.dentry_same Dentry.shape fun _ _ => rfl⟩

theorem Edit.linked (he : Edit s s') (h : Linked s) : Linked s' := by
  cases he with
  | heap | quiet => exact h.congr ⟨rfl, rfl, rfl, fun _ => rfl⟩
  | append ha hp hn hdot hnew => exact h.append ha hp.toValid hn hnew
  | make hf hc => exact h.flip hf hc.live hc.inner hc.negative (fun _ => hc.folder.positive) nofun
  | drop hf hc hst hempty => exact h.flip hf hc.live hc.inner hc.positive nofun fun _ => hempty
  | rename hr hc => exact h.rename (hc.movable h) hr
  | @inode d φ ip hd =>
    refine h.congr ⟨rfl, rfl, rfl, fun e => ?_⟩
    rw [State.modify_dentry]
    split
    · rename_i heq
      have hpos := hd.positive
      rw [State.isPositive, Dentry.isPositive, Option.isSome_iff_exists, ← heq] at hpos
      obtain ⟨ip', hip⟩ := hpos
      simp [Dentry.shape, hip]
    · rfl
  | mark =>
    refine h.congr ⟨rfl, rfl, rfl, fun e => ?_⟩
    rw [State.modify_dentry]
    split <;> rfl
  | files hf => exact h.congr hf.sameShape

theorem MountEdit.linked (he : MountEdit s s') (h : Linked s) : Linked s' := by
  cases he with
  | call | heap => exact h.congr ⟨rfl, rfl, rfl, fun _ => rfl⟩
  | mount hn fs data inode => exact h.mountRoot hn fs data inode
  | umount hm => exact h.unmount hm

end Tree

end Novino.Vfs
