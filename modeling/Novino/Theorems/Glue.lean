import Novino.Theorems.Arena
import Novino.Mem.Heap
import Novino.Libc.Malloc

/-! What the steps of the allocators do to the data of the chunks that are given out, and the compound steps. -/

namespace Novino.Mem

def Arena.Holds (h h' : Arena) (c n : Nat) : Prop := ∀ w, c + 32 ≤ w → w < c + 32 + n → h'.mem w = h.mem w

def Arena.Same (h h' : Arena) (v' : Tiling) (c : Nat) : Prop :=
  v'.Used c ∧ h'.size c = h.size c ∧ h.Holds h' c (h.size c)

variable {h h₁ h₂ : Arena} {v v₁ v₂ : Tiling} {c : Nat}

theorem Arena.Same.refl (hc : v.Used c) : h.Same h v c :=
  ⟨hc, rfl, fun _ _ _ => rfl⟩

theorem Arena.Same.trans (h1 : h.Same h₁ v₁ c)
    (h2 : h₁.Same h₂ v₂ c) : h.Same h₂ v₂ c := by
  obtain ⟨-, hs1, hd1⟩ := h1
  obtain ⟨hu, hs2, hd2⟩ := h2
  refine ⟨hu, hs2.trans hs1, fun w hw hw' => ?_⟩
  exact (hd2 w hw (by rwa [hs1])).trans (hd1 w hw hw')

structure Arena.Reshaped (h : Arena) (v : Tiling) (h' : Arena) (v' : Tiling) : Prop where
  tiled : h'.Tiled v'
  start : v'.start = v.start
  used : ∀ x, v'.Used x ↔ v.Used x
  same : ∀ x, v.Used x → h.Same h' v' x

theorem Arena.Reshaped.refl (t : h.Tiled v) : h.Reshaped v h v :=
  ⟨t, rfl, fun _ => Iff.rfl, fun _ hx => .refl hx⟩

theorem Arena.Reshaped.trans (r1 : h.Reshaped v h₁ v₁)
    (r2 : h₁.Reshaped v₁ h₂ v₂) : h.Reshaped v h₂ v₂ where
  tiled := r2.tiled
  start := r2.start.trans r1.start
  used := fun x => (r2.used x).trans (r1.used x)
  same := fun x hx => (r1.same x hx).trans (r2.same x ((r1.used x).mpr hx))

namespace Tiling

def Coalesced (v : Tiling) : Prop := ∀ a b, Next v.chunks a b → a ∈ v.free → b ∉ v.free

/-- The only chunk that may have a free neighbour although it is free is `c`. -/
def Around (v : Tiling) (c : Nat) : Prop := ∀ a b, Next v.chunks a b → a ∈ v.free → b ∈ v.free → a = c ∨ b = c

/-- The only free chunk that may be followed by a free one is `c`. -/
def Ahead (v : Tiling) (c : Nat) : Prop := ∀ a b, Next v.chunks a b → a ∈ v.free → b ∈ v.free → a = c

end Tiling

namespace Arena.Tiled

variable {h h' : Arena} {v : Tiling} {a b c d n s x y : Nat}

section
variable (t : h.Tiled v)
include t

theorem region (hx : x ∈ v.chunks) (hy : y ∈ v.chunks) : x = y ∨ x + 32 + h.size x ≤ y ∨ y + 32 + h.size y ≤ x := by
  rcases lt_trichotomy x y with hlt | heq | hlt
  · exact .inr (.inl (t.end_le hx hy hlt))
  · exact .inl heq
  · exact .inr (.inr (t.end_le hy hx hlt))

theorem push_same (hc : v.Inner c) (hx : v.Used x) (hne : x ≠ c) :
    h.Same (h.insertFreeChunk c) { v with free := c :: v.free } x := by
  have hxc := t.region hx.1.1 hc.1
  have hcr := t.room c hc
  refine ⟨⟨hx.1, fun hm => (List.mem_cons.mp hm).elim hne hx.2⟩, ?_, fun w hw hw' => ?_⟩
  · exact t.push_head hc hx.1.1 (by omega) (by omega)
  · refine insertFreeChunk_mem_of_ne (by omega) (by omega) (by omega) fun h0 => ?_
    have hf := t.freeList_mem h0
    have hxf := t.region hx.1.1 (t.inner _ hf).1
    have hfr := t.room _ (t.inner _ hf)
    have hfx : x ≠ h.freeList := fun heq => hx.2 (heq ▸ hf)
    omega

theorem remove_same (hc : c ∈ v.free) (hx : v.Used x) :
    h.Same (h.removeFreeChunk c) { v with free := v.free.erase c } x := by
  have hne : ∀ y ∈ v.free, x + 32 + h.size x ≤ y ∨ y + 32 + h.size y ≤ x := fun y hy =>
    (t.region hx.1.1 (t.inner y hy).1).resolve_left fun heq => hx.2 (heq ▸ hy)
  have hroom : ∀ y ∈ v.free, 16 ≤ h.size y := fun y hy => t.room y (t.inner y hy)
  have hxc := hne c hc
  refine ⟨⟨hx.1, fun hm => hx.2 (List.mem_of_mem_erase hm)⟩, ?_, fun w hw hw' => ?_⟩
  · exact t.remove_head hc hx.1.1 (by omega) (by omega)
  · obtain ⟨hpf, hnf⟩ := t.links hc
    refine t.remove_other hc (by omega) (fun h0 => ?_) fun h0 => ?_
    · have := hne _ (hnf h0).1
      have := hroom _ (hnf h0).1
      omega
    · have := hne _ (hpf h0).1
      have := hroom _ (hpf h0).1
      omega

theorem remove_size (hc : c ∈ v.free) (hx : x ∈ v.chunks) : (h.removeFreeChunk c).size x = h.size x := by
  have := t.apart hx (t.inner c hc)
  exact t.remove_head hc hx (by omega) (by omega)

theorem push_size (hc : v.Inner c) (hx : x ∈ v.chunks) : (h.insertFreeChunk c).size x = h.size x := by
  have := t.apart hx hc
  exact t.push_head hc hx (by omega) (by omega)

section
variable (hab : Next v.chunks a b)
include hab

theorem merge_holds (hbd : Next v.chunks b d) (hx : x ∈ v.chunks) : h.Holds (h.merge a b d) x (h.size x) := by
  intro w hw hw'
  have hxa := t.region hx hab.left
  have hxd := t.region hx hbd.right
  exact merge_of_ne (by omega)

theorem merge_same (hbd : Next v.chunks b d) (hx : v.Used x) (hxa : x ≠ a)
    (hxb : x ≠ b) : h.Same (h.merge a b d) { v with chunks := v.chunks.erase b } x := by
  refine ⟨⟨⟨Finset.mem_erase.mpr ⟨hxb, hx.1.1⟩, hx.1.2⟩, hx.2⟩, ?_, t.merge_holds hab hbd hx.1.1⟩
  have hxa := t.heads_apart hx.1.1 hab.left
  have hxd := t.heads_apart hx.1.1 hbd.right
  exact merge_of_ne (by omega)

theorem cleave_holds (hn : n = a + 32 + s) (hroom : s + 48 ≤ h.size a) : h.Holds (h.cleave a n b s) a s := by
  obtain ⟨-, -, hsa⟩ := t.step a b hab
  intro w hw hw'
  exact cleave_of_ne (by omega)

theorem cleave_same (hn : n = a + 32 + s) (hroom : s + 48 ≤ h.size a)
    (hx : v.Used x) (hxa : x ≠ a) : h.Same (h.cleave a n b s) { v with chunks := insert n v.chunks } x := by
  obtain ⟨-, -, hsa⟩ := t.step a b hab
  have hxa := t.region hx.1.1 hab.left
  have hxb := t.region hx.1.1 hab.right
  exact ⟨⟨⟨Finset.mem_insert_of_mem hx.1.1, hx.1.2⟩, hx.2⟩, cleave_of_ne (by omega),
    fun w hw hw' => cleave_of_ne (by omega)⟩

end

theorem extend_same (hn : v.last + 48 ≤ n) (hx : v.Used x) :
    h.Same (h.extend v.last n) { v with last := n, chunks := insert n v.chunks } x := by
  have hlt := lt_of_le_of_ne (t.high x hx.1.1) hx.1.2.2
  have hend := t.end_le hx.1.1 t.last_mem hlt
  refine ⟨⟨⟨Finset.mem_insert_of_mem hx.1.1, hx.1.2.1, ?_⟩, hx.2⟩, extend_of_ne (by omega),
    fun w hw hw' => extend_of_ne (by omega)⟩
  exact ne_of_lt (hlt.trans (by simp only; omega))

theorem join (hab : Next v.chunks a b) (hbd : Next v.chunks b d) (ha : a ∈ v.free) (hb : b ∈ v.free)
    (hxy : x = a ∧ y = b ∨ x = b ∧ y = a)
    (hh' : h' = (((h.removeFreeChunk x).removeFreeChunk y).merge a b d).insertFreeChunk a) :
    ∃ l, h.Reshaped v h' { v with chunks := v.chunks.erase b, free := l } ∧ (∀ z, z ∈ l ↔ z ∈ v.free ∧ z ≠ b) ∧
      h'.size a = h.size a + (h.size b + 32) := by
  subst hh'
  have hne : a ≠ b := hab.lt.ne
  have hx : x ∈ v.free := by rcases hxy with ⟨rfl, -⟩ | ⟨rfl, -⟩ <;> assumption
  have hy : y ∈ v.free.erase x := by
    rw [t.nodup.mem_erase_iff]
    rcases hxy with ⟨rfl, rfl⟩ | ⟨rfl, rfl⟩
    · exact ⟨hne.symm, hb⟩
    · exact ⟨hne, ha⟩
  have t1 := t.remove hx
  have t2 := t1.remove hy
  have hmem : ∀ z, z ∈ (v.free.erase x).erase y ↔ z ≠ a ∧ z ≠ b ∧ z ∈ v.free := by
    intro z
    rw [(t.nodup.erase x).mem_erase_iff, t.nodup.mem_erase_iff]
    rcases hxy with ⟨rfl, rfl⟩ | ⟨rfl, rfl⟩ <;> grind
  have hua : a ∉ (v.free.erase x).erase y := fun hm => ((hmem a).mp hm).1 rfl
  have hub : b ∉ (v.free.erase x).erase y := fun hm => ((hmem b).mp hm).2.1 rfl
  have t3 := t2.merge hab hbd ⟨t.inner a ha, hua⟩ ⟨t.inner b hb, hub⟩
  have hua' : Tiling.Used ⟨v.start, v.last, v.chunks.erase b, (v.free.erase x).erase y⟩ a :=
    ⟨⟨Finset.mem_erase.mpr ⟨hne, hab.left⟩, (t.inner a ha).2⟩, hua⟩
  have hfree : ∀ z, z ∈ a :: (v.free.erase x).erase y ↔ z ∈ v.free ∧ z ≠ b := by
    intro z
    rw [List.mem_cons, hmem]
    grind
  refine ⟨_, ⟨t3.push hua', rfl, fun z => ?_, fun z hz => ?_⟩, hfree, ?_⟩
  · unfold Tiling.Used Tiling.Inner
    simp only [hfree, Finset.mem_erase]
    grind
  · have hza : z ≠ a := fun heq => hz.2 (heq ▸ ha)
    have hzb : z ≠ b := fun heq => hz.2 (heq ▸ hb)
    have s1 := t.remove_same hx hz
    have s2 := t1.remove_same hy s1.1
    have s3 := t2.merge_same hab hbd s2.1 hza hzb
    exact s1.trans (s2.trans (s3.trans (t3.push_same hua'.1 s3.1 hza)))
  · rw [t3.push_size hua'.1 hua'.1.1, merge_size, t1.remove_size hy hab.left, t1.remove_size hy hbd.left,
      t.remove_size hx hab.left, t.remove_size hx hbd.left]
    have := t.end_le hab.left hbd.right (hab.lt.trans hbd.lt)
    have := t.room a (t.inner a ha)
    omega

theorem absorb (hab : Next v.chunks a b) (hbd : Next v.chunks b d) (ha : v.Used a) (hb : b ∈ v.free)
    (hh' : h' = (h.removeFreeChunk b).merge a b d) :
    h'.Tiled { v with chunks := v.chunks.erase b, free := v.free.erase b } ∧
      h'.size a = h.size a + (h.size b + 32) ∧ h.Holds h' a (h.size a) ∧
      ∀ z, v.Used z → z ≠ a → h.Same h' { v with chunks := v.chunks.erase b, free := v.free.erase b } z := by
  subst hh'
  have t1 := t.remove hb
  have sa := t.remove_same hb ha
  have hub : Tiling.Used { v with free := v.free.erase b } b := ⟨t.inner b hb, t.nodup.not_mem_erase⟩
  have hend := t.end_le hab.left hbd.right (hab.lt.trans hbd.lt)
  have hroom := t.room a ha.1
  refine ⟨t1.merge hab hbd sa.1 hub, ?_, fun w hw hw' => ?_, fun z hz hza => ?_⟩
  · rw [merge_size (by omega), t.remove_size hb hab.left, t.remove_size hb hbd.left]
  · exact (t1.merge_holds hab hbd hab.left w hw (by rwa [sa.2.1])).trans (sa.2.2 w hw hw')
  · have s1 := t.remove_same hb hz
    exact s1.trans (t1.merge_same hab hbd s1.1 hza fun heq => hz.2 (heq ▸ hb))

theorem cutoff (hab : Next v.chunks a b) (ha : v.Inner a) (hn : n = a + 32 + s) (hs : 16 ≤ s)
    (hs16 : 16 ∣ s) (hroom : s + 48 ≤ h.size a) (hh' : h' = (h.cleave a n b s).insertFreeChunk n) :
    n ∉ v.chunks ∧ h'.Tiled { v with chunks := insert n v.chunks, free := n :: v.free } ∧ h'.size a = s ∧
      (v.Used a → h.Holds h' a s) ∧
      ∀ z, v.Used z → z ≠ a → h.Same h' { v with chunks := insert n v.chunks, free := n :: v.free } z := by
  subst hh'
  have hsa := (t.step a b hab).2.2
  have hnew : n ∉ v.chunks := fun hm => by
    have := hab.between hm
    omega
  have t1 := t.cleave hab ha hn hs hs16 hroom
  have hsize : (h.cleave a n b s).size a = s := (h.cleave_mem ..).trans (if_pos rfl)
  have hun : Tiling.Used { v with chunks := insert n v.chunks } n := by
    have hlo := t.low a ha.1
    have hhi := t.high b hab.right
    refine ⟨⟨Finset.mem_insert_self _ _, ?_, ?_⟩, fun hf => hnew (t.inner n hf).1⟩
    · simp only
      omega
    · simp only
      omega
  refine ⟨hnew, t1.push hun, ?_, fun hua => ?_, fun z hz hza => ?_⟩
  · exact (t1.push_size hun.1 (Finset.mem_insert_of_mem ha.1)).trans hsize
  · have hua' : Tiling.Used { v with chunks := insert n v.chunks } a :=
      ⟨⟨Finset.mem_insert_of_mem ha.1, ha.2⟩, hua.2⟩
    have hpush := (t1.push_same hun.1 hua' (by omega)).2.2
    rw [hsize] at hpush
    exact fun w hw hw' => (hpush w hw hw').trans (t.cleave_holds hab hn hroom w hw hw')
  · have s1 := t.cleave_same hab hn hroom hz hza
    exact s1.trans (t1.push_same hun.1 s1.1 fun heq => hnew (heq ▸ hz.1.1))

theorem grow (hn : v.last + 48 ≤ n) (hn16 : 16 ∣ n) (hbound : n + 32 < 2 ^ 64)
    (hh' : h' = (h.extend v.last n).insertFreeChunk v.last) :
    h.Reshaped v h' { v with last := n, chunks := insert n v.chunks, free := v.last :: v.free } ∧
      h'.size v.last = n - v.last - 32 := by
  subst hh'
  have t1 := t.extend hn hn16 hbound
  have hul : Tiling.Used { v with last := n, chunks := insert n v.chunks } v.last := by
    refine ⟨⟨Finset.mem_insert_of_mem t.last_mem, t.lt.ne', ?_⟩, fun hf => (t.inner _ hf).2.2 rfl⟩
    simp only
    omega
  refine ⟨⟨t1.push hul, rfl, fun z => ?_, fun z hz => ?_⟩, ?_⟩
  · have := t.high z
    unfold Tiling.Used Tiling.Inner
    simp only [Finset.mem_insert, List.mem_cons]
    grind
  · have s1 := t.extend_same hn hz
    exact s1.trans (t1.push_same hul.1 s1.1 hz.1.2.2)
  · rw [t1.push_size hul.1 hul.1.1]
    exact (h.extend_heads (by omega)).2.2.1

end

end Arena.Tiled

namespace Arena

variable {h : Arena} {v : Tiling} {a b c d n s : Nat}

theorem joinPrev_eq (hb : h.prev b = a) (hd : h.next b = d) (hab : a + 32 ≤ b) (hbd : b + 32 ≤ d)
    (hs : h.size a + (h.size b + 32) < 2 ^ 64) :
    h.joinPrev b = h.merge a b d ∧ (h.merge a b d).prev b = a := by
  have h1 : (h.setSize a (h.size a + (h.size b + 32))).prev b = a := (write_of_ne (by omega)).trans hb
  have h2 : (h.setSize a (h.size a + (h.size b + 32))).next b = d := (write_of_ne (by omega)).trans hd
  have h3 : ((h.setSize a (h.size a + (h.size b + 32))).setNext a d).prev b = a := (write_of_ne (by omega)).trans h1
  have h4 : ((h.setSize a (h.size a + (h.size b + 32))).setNext a d).next b = d := (write_of_ne (by omega)).trans h2
  constructor
  · simp only [joinPrev, hb, HEAP_HEADER_SIZE, Nat.mod_eq_of_lt hs, h1, h2, h3, h4]
    rfl
  · exact (merge_of_ne (by omega)).trans hb

theorem joinNext_eq (ha : h.next a = b) (hd : h.next b = d) (hab : a + 32 ≤ b)
    (hs : h.size a + (h.size b + 32) < 2 ^ 64) : h.joinNext a = h.merge a b d := by
  have h1 : (h.setSize a (h.size a + (h.size b + 32))).next a = b := (write_of_ne (by omega)).trans ha
  have h2 : (h.setSize a (h.size a + (h.size b + 32))).next b = d := (write_of_ne (by omega)).trans hd
  have h3 : ((h.setSize a (h.size a + (h.size b + 32))).setNext a d).next a = d := by
    simp only [setNext, next, write_mem, if_true]
  simp only [joinNext, ha, HEAP_HEADER_SIZE, Nat.mod_eq_of_lt hs, h1, h2, h3]
  rfl

end Arena

namespace Arena.Tiled

variable {h h' : Arena} {v : Tiling} {a b c n p s x y : Nat}

theorem isFree_ne_zero (t : h.Tiled v) (hc : c ∈ v.chunks) : h.isFree c ≠ 0 ↔ c ∈ v.free := by
  rw [t.flag c hc]
  by_cases hf : c ∈ v.free <;> simp [hf]

theorem sizes_lt (t : h.Tiled v) (hab : Next v.chunks a b) (hbd : Next v.chunks b d) :
    h.size a + (h.size b + 32) < 2 ^ 64 := by
  have hsa := (t.step a b hab).2.2
  have hsb := (t.step b d hbd).2.2
  have hd := t.high d hbd.right
  have := t.bound
  omega

theorem glueBack (t : h.Tiled v) (hc : c ∈ v.free) : ∃ v', h.Reshaped v (h.glueBack c).1 v' ∧ v'.last = v.last ∧
    (h.glueBack c).2 ∈ v'.free ∧ (v.Around c → v'.Ahead (h.glueBack c).2) := by
  obtain ⟨p, hpc⟩ := t.exists_prev (t.inner c hc).1 (t.inner c hc).2.1
  obtain ⟨d, hcd⟩ := t.exists_next (t.inner c hc).1 (t.inner c hc).2.2
  have hprev : h.prev c = p := (t.step p c hpc).2.1
  by_cases hp : p ∈ v.free
  · have t1 := t.remove hc
    have hp' : p ∈ v.free.erase c := t.nodup.mem_erase_iff.mpr ⟨hpc.lt.ne, hp⟩
    have hprev1 : (h.removeFreeChunk c).prev c = p := (t1.step p c hpc).2.1
    have t2 := t1.remove hp'
    have hsp := (t2.step p c hpc).2.2
    have hsc := (t2.step c d hcd).2.2
    obtain ⟨hjoin, hprev2⟩ := joinPrev_eq (t2.step p c hpc).2.1 (t2.step c d hcd).1 (by omega) (by omega)
      (t2.sizes_lt hpc hcd)
    have hprev3 : ((((h.removeFreeChunk c).removeFreeChunk p).merge p c d).insertFreeChunk p).prev c = p := by
      have hpc' := t.apart hpc.right (t.inner p hp)
      have hlt := hpc.lt
      refine (insertFreeChunk_mem_of_ne (w := c) (by omega) (by omega) (by omega) fun h0 => ?_).trans hprev2
      rw [merge_freeList] at h0 ⊢
      have hf := t2.apart hpc.right (t2.inner _ (t2.freeList_mem h0))
      omega
    have heq : h.glueBack c =
        ((((h.removeFreeChunk c).removeFreeChunk p).merge p c d).insertFreeChunk p, p) := by
      unfold Arena.glueBack
      rw [if_pos (by rw [hprev]; exact (t.isFree_ne_zero hpc.left).mpr hp)]
      simp only [hprev1, hjoin, hprev2, hprev3]
    obtain ⟨l, hr, hl, -⟩ := t.join hpc hcd hp hc (.inr ⟨rfl, rfl⟩) rfl
    rw [heq]
    refine ⟨_, hr, rfl, (hl p).mpr ⟨hp, hpc.lt.ne⟩, fun haround x y hxy hx hy => ?_⟩
    rcases hpc.of_erase hcd hxy with ⟨rfl, -⟩ | ⟨hxy', -, hxc, hyc, -⟩
    · rfl
    · have := haround x y hxy' ((hl x).mp hx).1 ((hl y).mp hy).1
      exact absurd this (by simp [hxc, hyc])
  · have heq : h.glueBack c = (h, c) := by
      unfold Arena.glueBack
      rw [if_neg]
      rw [hprev]
      exact fun hf => hp ((t.isFree_ne_zero hpc.left).mp hf)
    rw [heq]
    refine ⟨v, .refl t, rfl, hc, fun haround x y hxy hx hy => ?_⟩
    refine (haround x y hxy hx hy).resolve_right ?_
    rintro rfl
    exact hp (hpc.eq_left hxy ▸ hx)

theorem glueNext (t : h.Tiled v) (hc : c ∈ v.free) : ∃ v', h.Reshaped v (h.glueNext c) v' ∧ v'.last = v.last ∧
    c ∈ v'.free ∧ (∀ d, Next v.chunks c d → d ∈ v.free → h.size d ≤ (h.glueNext c).size c) ∧
      (v.Ahead c → v'.Coalesced) := by
  obtain ⟨d, hcd⟩ := t.exists_next (t.inner c hc).1 (t.inner c hc).2.2
  have hnext : h.next c = d := (t.step c d hcd).1
  by_cases hd : d ∈ v.free
  · obtain ⟨e, hde⟩ := t.exists_next (t.inner d hd).1 (t.inner d hd).2.2
    have t1 := t.remove hc
    have hd' : d ∈ v.free.erase c := t.nodup.mem_erase_iff.mpr ⟨hcd.lt.ne', hd⟩
    have hnext1 : (h.removeFreeChunk c).next c = d := (t1.step c d hcd).1
    have t2 := t1.remove hd'
    have hsc := (t2.step c d hcd).2.2
    have hjoin := joinNext_eq (t2.step c d hcd).1 (t2.step d e hde).1 (by omega) (t2.sizes_lt hcd hde)
    have heq : h.glueNext c = (((h.removeFreeChunk c).removeFreeChunk d).merge c d e).insertFreeChunk c := by
      unfold Arena.glueNext
      rw [if_pos (by rw [hnext]; exact (t.isFree_ne_zero hcd.right).mpr hd)]
      simp only [hnext1, hjoin]
    obtain ⟨l, hr, hl, hsize⟩ := t.join hcd hde hc hd (.inl ⟨rfl, rfl⟩) heq
    refine ⟨_, hr, rfl, (hl c).mpr ⟨hc, hcd.lt.ne⟩, fun d' hcd' _ => ?_, fun hahead x y hxy hx hy => ?_⟩
    · rw [← hcd.eq_right hcd', hsize]
      omega
    rcases hcd.of_erase hde hxy with ⟨-, rfl⟩ | ⟨hxy', hxc, -⟩
    · exact hcd.lt.ne' (hahead d y hde hd ((hl y).mp hy).1)
    · exact hxc (hahead x y hxy' ((hl x).mp hx).1 ((hl y).mp hy).1)
  · have heq : h.glueNext c = h := by
      unfold Arena.glueNext
      rw [if_neg]
      rw [hnext]
      exact fun hf => hd ((t.isFree_ne_zero hcd.right).mp hf)
    rw [heq]
    refine ⟨v, .refl t, rfl, hc, fun d' hcd' hd' => absurd (hcd.eq_right hcd' ▸ hd') hd, fun hahead x y hxy hx hy => ?_⟩
    have := hahead x y hxy hx hy
    subst this
    exact hd (hcd.eq_right hxy ▸ hy)

end Arena.Tiled

theorem sub64_eq {a b : Nat} (hba : b ≤ a) (ha : a < 2 ^ 64) : sub64 a b = a - b := by
  unfold sub64
  omega

namespace Arena.Tiled

variable {h h' : Arena} {v : Tiling} {a b c d n p s x y : Nat}

section
variable (t : h.Tiled v) (hab : Next v.chunks a b) (hn : n = a + 32 + s) (hroom : s + 48 ≤ h.size a)
include t hab hn hroom

theorem split_reads :
    chunkNext a s = n ∧ (h.setPrev n a).next a = b ∧ ((h.setPrev n a).setNext n b).chunkSize n = b - n - 32 ∧
      (((h.setPrev n a).setNext n b).setSize n (b - n - 32)).next a = b := by
  obtain ⟨hnext, -, hsa⟩ := t.step a b hab
  have hb := t.high b hab.right
  have hbound := t.bound
  refine ⟨?_, ?_, ?_, ?_⟩
  · unfold chunkNext HEAP_HEADER_SIZE
    omega
  · exact (write_of_ne (by omega)).trans hnext
  · simp only [chunkSize, Arena.next, setNext, write_mem, if_true, HEAP_HEADER_SIZE]
    rw [sub64_eq (a := b) (b := n) (by omega) (by omega), sub64_eq (by omega) (by omega)]
  · exact ((write_of_ne (by omega)).trans ((write_of_ne (by omega)).trans (write_of_ne (by omega)))).trans hnext

theorem libc_split : Libc.splitChunk h a s = (h.cleave a n b s).insertFreeChunk n := by
  obtain ⟨hcn, h1, h2, h3⟩ := t.split_reads hab hn hroom
  have hsa := (t.step a b hab).2.2
  have hb := t.high b hab.right
  have hbound := t.bound
  unfold Libc.splitChunk
  rw [if_neg (by unfold HEAP_DATA_ALIGN HEAP_HEADER_SIZE; omega)]
  simp only [hcn, h1, h2, h3]
  ext w
  · rw [insertFreeChunk_mem, insertFreeChunk_mem, cleave_mem]
    simp only [setPrev, setNext, setSize, write_mem, write_freeList, cleave_freeList]
    by_cases hw : w = n + 24
    · simp only [hw, if_true]
    · simp only [hw, if_false]
  · rfl

theorem kernel_split : h.splitChunk a s = (h.cleave a n b s).insertFreeChunk n := by
  obtain ⟨hcn, h1, h2, h3⟩ := t.split_reads hab hn hroom
  have hsa := (t.step a b hab).2.2
  have hb := t.high b hab.right
  have hbound := t.bound
  -- The chunk enters the free list before the headers around it change; they are not links.
  have hlist : h.freeList ≠ 0 → a + 8 ≠ h.freeList + 32 ∧ a + 16 ≠ h.freeList + 32 ∧ b ≠ h.freeList + 32 := by
    intro h0
    have hin := t.inner _ (t.freeList_mem h0)
    have := t.apart hab.left hin
    have := t.apart hab.right hin
    omega
  have h4 : ((((h.setPrev n a).setNext n b).setSize n (b - n - 32)).insertFreeChunk n).next a = b := by
    unfold Arena.next at h3 ⊢
    rw [insertFreeChunk_mem, if_neg fun hw => (hlist hw.1).1 hw.2, if_neg (by omega), if_neg (by omega),
      if_neg (by omega)]
    exact h3
  unfold Arena.splitChunk
  rw [if_neg (by unfold HEAP_DATA_ALIGN HEAP_HEADER_SIZE; omega)]
  simp only [hcn, h1, h2, h4]
  ext w
  · have hkeep : w = a + 16 ∨ w = a + 8 ∨ w = b →
        ((h.cleave a n b s).insertFreeChunk n).mem w = (h.cleave a n b s).mem w := by
      intro hw
      refine insertFreeChunk_mem_of_ne (by omega) (by omega) (by omega) fun h0 => ?_
      have := hlist h0
      rw [cleave_freeList]
      omega
    simp only [setPrev, setNext, setSize, write_mem] at *
    by_cases hw1 : w = a + 16
    · rw [if_pos hw1, hkeep (.inl hw1), cleave_mem, if_pos hw1]
    by_cases hw2 : w = a + 8
    · rw [if_neg hw1, if_pos hw2, hkeep (.inr (.inl hw2)), cleave_mem, if_neg hw1, if_pos hw2]
    by_cases hw3 : w = b
    · rw [if_neg hw1, if_neg hw2, if_pos hw3, hkeep (.inr (.inr hw3)), cleave_mem, if_neg hw1, if_neg hw2,
        if_pos hw3]
    rw [if_neg hw1, if_neg hw2, if_neg hw3, insertFreeChunk_mem, insertFreeChunk_mem, cleave_mem, if_neg hw1,
      if_neg hw2, if_neg hw3]
    simp only [write_mem, write_freeList, cleave_freeList]
    by_cases hw : w = n + 24
    · simp only [hw, if_true]
    · simp only [hw, if_false]
  · rfl

end

section
variable (t : h.Tiled v)
include t

theorem size_lt (ha : v.Inner a) : h.size a + 48 < 2 ^ 64 := by
  obtain ⟨b, hab⟩ := t.exists_next ha.1 ha.2.2
  have hsa := (t.step a b hab).2.2
  have hb := t.high b hab.right
  have hbound := t.bound
  have hlow := t.low a ha.1
  have hpos := t.pos
  have h16 := t.aligned a ha.1
  omega

theorem split_small (ha : v.Inner a) (hs : s ≤ h.size a) (hroom : h.size a < s + 48) : Libc.splitChunk h a s = h := by
  have := t.size_lt ha
  unfold Libc.splitChunk
  exact if_pos (by unfold HEAP_DATA_ALIGN HEAP_HEADER_SIZE; omega)

theorem splitChunk_eq (ha : v.Inner a) (hs : s ≤ h.size a) : h.splitChunk a s = Libc.splitChunk h a s := by
  obtain ⟨b, hab⟩ := t.exists_next ha.1 ha.2.2
  rcases lt_or_ge (h.size a) (s + 48) with hroom | hroom
  · rw [t.split_small ha hs hroom]
    have := t.size_lt ha
    unfold Arena.splitChunk
    exact if_pos (by unfold HEAP_DATA_ALIGN HEAP_HEADER_SIZE; omega)
  · rw [t.kernel_split hab rfl hroom, t.libc_split hab rfl hroom]

theorem libc_glueNext (hc : c ∈ v.free) : Libc.glueNext h c = h.glueNext c := by
  have hflag := (t.isFree_ne_zero (t.inner c hc).1).mpr hc
  unfold Libc.glueNext Arena.glueNext
  simp only [if_pos hflag]

theorem take (hc : c ∈ v.free) (hs : 16 ≤ s) (hs16 : 16 ∣ s) (hsc : s ≤ h.size c)
    (hh' : h' = (Libc.splitChunk h c s).removeFreeChunk c) : ∃ v', h'.Tiled v' ∧ v'.start = v.start ∧
      v'.last = v.last ∧ (∀ x, v'.Used x ↔ v.Used x ∨ x = c) ∧ (∀ x, v.Used x → h.Same h' v' x) ∧ s ≤ h'.size c ∧
      (v.Coalesced → v'.Coalesced) := by
  subst hh'
  have hin := t.inner c hc
  rcases lt_or_ge (h.size c) (s + 48) with hroom | hroom
  · rw [t.split_small hin hsc hroom]
    refine ⟨_, t.remove hc, rfl, rfl, fun x => ?_, fun x hx => t.remove_same hc hx, ?_, fun hco a b hab ha hb => ?_⟩
    · unfold Tiling.Used
      simp only [t.nodup.mem_erase_iff]
      constructor
      · rintro ⟨hx, hxf⟩
        by_cases hxc : x = c
        · exact .inr hxc
        · exact .inl ⟨hx, fun hf => hxf ⟨hxc, hf⟩⟩
      · rintro (⟨hx, hxf⟩ | rfl)
        · exact ⟨hx, fun hf => hxf hf.2⟩
        · exact ⟨hin, fun hf => hf.1 rfl⟩
    · exact hsc.trans_eq (t.remove_size hc hin.1).symm
    · exact hco a b hab (List.mem_of_mem_erase ha) (List.mem_of_mem_erase hb)
  · obtain ⟨b, hcb⟩ := t.exists_next hin.1 hin.2.2
    have hsa := (t.step c b hcb).2.2
    obtain ⟨hnew, t1, hsize, -, hsame⟩ := t.cutoff hcb hin rfl hs hs16 hroom rfl
    rw [t.libc_split hcb rfl hroom]
    have hc' : c ∈ (c + 32 + s) :: v.free := List.mem_cons_of_mem _ hc
    refine ⟨_, t1.remove hc', rfl, rfl, fun x => ?_, fun x hx => ?_, ?_, fun hco x y hxy hx hy => ?_⟩
    · have hfresh : ∀ x ∈ v.chunks, x ≠ c + 32 + s := fun x hx heq => hnew (heq ▸ hx)
      have := t.inner c hc
      unfold Tiling.Used Tiling.Inner at *
      simp only [t1.nodup.mem_erase_iff, List.mem_cons, Finset.mem_insert]
      grind
    · have s1 := hsame x hx fun heq => hx.2 (heq ▸ hc)
      exact s1.trans (t1.remove_same hc' s1.1)
    · exact (hsize.symm.trans (t1.remove_size hc' (Finset.mem_insert_of_mem hin.1)).symm).le
    · -- The part that is cut off is followed by what followed the whole chunk, which is not free.
      have hold : ∀ {z}, z ∈ v.chunks → z ∈ ((c + 32 + s) :: v.free).erase c → z ∈ v.free := by
        intro z hz hzf
        rcases List.mem_cons.mp (List.mem_of_mem_erase hzf) with rfl | hzf
        · exact absurd hz hnew
        · exact hzf
      rcases hcb.of_insert (by omega) (by omega) hxy with ⟨rfl, -⟩ | ⟨-, rfl⟩ | ⟨hxy', -, -⟩
      · exact t1.nodup.not_mem_erase hx
      · exact hco c y hcb hc (hold hcb.right hy)
      · exact hco x y hxy' (hold hxy'.left hx) (hold hxy'.right hy)

theorem release (hc : v.Used c) (hh' : h' = ((h.insertFreeChunk c).glueBack c).1.glueNext
      ((h.insertFreeChunk c).glueBack c).2) : ∃ v', h'.Tiled v' ∧ v'.start = v.start ∧
      v'.last = v.last ∧ (∀ x, v'.Used x ↔ v.Used x ∧ x ≠ c) ∧ (∀ x, v.Used x → x ≠ c → h.Same h' v' x) ∧
      (v.Coalesced → v'.Coalesced) := by
  subst hh'
  have t1 := t.push hc
  obtain ⟨v2, r2, hl2, hmem2, hco2⟩ := t1.glueBack List.mem_cons_self
  obtain ⟨v3, r3, hl3, -, -, hco3⟩ := r2.tiled.glueNext hmem2
  have hused : ∀ x, Tiling.Used { v with free := c :: v.free } x ↔ v.Used x ∧ x ≠ c := by
    intro x
    unfold Tiling.Used Tiling.Inner
    simp only [List.mem_cons, not_or]
    tauto
  have r := r2.trans r3
  refine ⟨v3, r3.tiled, r.start, hl3.trans hl2, fun x => (r.used x).trans (hused x), fun x hx hne => ?_, fun hco => ?_⟩
  · exact (t.push_same hc.1 hx hne).trans (r.same x ((hused x).mpr ⟨hx, hne⟩))
  · refine hco3 (hco2 fun x y hxy hx hy => ?_)
    rcases List.mem_cons.mp hx with rfl | hx
    · exact .inl rfl
    rcases List.mem_cons.mp hy with rfl | hy
    · exact .inr rfl
    · exact absurd hy (hco x y hxy hx)

theorem moveGuard_eq (hn : v.last + 48 ≤ n) (hn16 : 16 ∣ n) (hbound : n + 32 < 2 ^ 64)
    (hp : Next v.chunks p v.last) (glue : Arena → Nat → Arena) : h.moveGuard glue v.last n =
      if p ∈ v.free then (glue ((h.extend v.last n).insertFreeChunk v.last) p, p)
      else ((h.extend v.last n).insertFreeChunk v.last, v.last) := by
  have t1 := (t.grow hn hn16 hbound rfl).1.tiled
  have hcs : (h.setNext v.last n).chunkSize v.last = n - v.last - 32 := by
    simp only [chunkSize, Arena.next, setNext, write_mem, if_true, HEAP_HEADER_SIZE]
    rw [sub64_eq (a := n) (b := v.last) (by omega) (by omega), sub64_eq (by omega) (by omega)]
  have hbody : ((((h.setNext v.last n).setSize v.last (n - v.last - 32)).setFree v.last 1).setHeader n v.last 0 0
      0).insertFreeChunk v.last = (h.extend v.last n).insertFreeChunk v.last := by
    ext w
    · have hlist : (h.extend v.last n).freeList = h.freeList := rfl
      rw [insertFreeChunk_mem, insertFreeChunk_mem, extend_mem, hlist]
      simp only [setHeader, setPrev, setNext, setSize, setFree, write_mem, write_freeList]
      by_cases hw : w = v.last + 24
      · simp only [hw, if_true]
      · simp only [hw, if_false]
    · rfl
  have hp' : Next (insert n v.chunks) p v.last := hp.insert_above (by omega)
  have hprev := (t1.step p v.last hp').2.1
  have hfree : p ∈ v.last :: v.free ↔ p ∈ v.free := by simp [hp.lt.ne]
  unfold Arena.moveGuard
  simp only [hcs, hbody, hprev]
  by_cases hpf : p ∈ v.free
  · rw [if_pos ((t1.isFree_ne_zero hp'.left).mpr (hfree.mpr hpf)), if_pos hpf]
  · rw [if_neg fun hf => hpf (hfree.mp ((t1.isFree_ne_zero hp'.left).mp hf)), if_neg hpf]

theorem grow_ahead (hn : v.last + 48 ≤ n) (hp : Next v.chunks p v.last) (hco : v.Coalesced) :
    Tiling.Ahead { v with last := n, chunks := insert n v.chunks, free := v.last :: v.free } p := by
  intro x y hxy hx hy
  rcases Next.of_insert_top t.last_mem t.high (by omega) hxy with ⟨-, rfl⟩ | hxy'
  · rcases List.mem_cons.mp hy with heq | hy'
    · omega
    · have := t.high y (t.inner y hy').1
      omega
  · have hxl := hxy'.lt.trans_le (t.high y hxy'.right)
    have hx' := (List.mem_cons.mp hx).resolve_left hxl.ne
    rcases List.mem_cons.mp hy with rfl | hy'
    · exact hxy'.eq_left hp
    · exact absurd hy' (hco x y hxy' hx')

theorem moveGuard (hn : v.last + 48 ≤ n) (hn16 : 16 ∣ n) (hbound : n + 32 < 2 ^ 64)
    {glue : Arena → Nat → Arena} (hglue : ∀ g w c, Tiled g w → c ∈ w.free → glue g c = g.glueNext c) :
    ∃ v', h.Reshaped v (h.moveGuard glue v.last n).1 v' ∧ v'.last = n ∧ (h.moveGuard glue v.last n).2 ∈ v'.free ∧
      n - v.last - 32 ≤ (h.moveGuard glue v.last n).1.size (h.moveGuard glue v.last n).2 ∧
      (v.Coalesced → v'.Coalesced) := by
  obtain ⟨r1, hsize⟩ := t.grow hn hn16 hbound rfl
  have t1 := r1.tiled
  obtain ⟨p, hp⟩ := t.exists_prev t.last_mem t.lt.ne'
  have hp' : Next (insert n v.chunks) p v.last := hp.insert_above (by omega)
  have hahead := t.grow_ahead hn hp
  rw [t.moveGuard_eq hn hn16 hbound hp]
  by_cases hpf : p ∈ v.free
  · rw [if_pos hpf]
    have hpf' : p ∈ v.last :: v.free := List.mem_cons_of_mem _ hpf
    obtain ⟨v2, r2, hl2, hmem, hsz, hco2⟩ := t1.glueNext hpf'
    simp only [hglue _ _ p t1 hpf']
    exact ⟨v2, r1.trans r2, hl2, hmem, hsize.symm.le.trans (hsz v.last hp' List.mem_cons_self),
      fun hco => hco2 (hahead hco)⟩
  · rw [if_neg hpf]
    refine ⟨_, r1, rfl, List.mem_cons_self, hsize.symm.le, fun hco x y hxy hx hy => ?_⟩
    have hxp := hahead hco x y hxy hx hy
    exact hpf ((List.mem_cons.mp (hxp ▸ hx)).resolve_left hp.lt.ne)

end

end Arena.Tiled
end Novino.Mem
