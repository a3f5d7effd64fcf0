import Novino.Theorems.Heap

/-! A chunk that is given out changes in place, as `realloc` of the C library does it, and the other ones stay as they
    are. -/

namespace Novino.Mem.Arena

/-- The chunk `c` changes, of which the first `k` bytes of the data stay, and no other one that is given out. -/
structure Resized (h : Arena) (v : Tiling) (h' : Arena) (v' : Tiling) (c k : Nat) : Prop where
  tiled : h'.Tiled v'
  start : v'.start = v.start
  used : ∀ x, v'.Used x ↔ v.Used x
  same : ∀ x, v.Used x → x ≠ c → h.Same h' v' x
  holds : h.Holds h' c k

variable {h h' h₁ h₂ : Arena} {v v' v₁ v₂ : Tiling} {b c d k k₁ k₂ s x : Nat}

theorem Resized.refl (t : h.Tiled v) : h.Resized v h v c k :=
  ⟨t, rfl, fun _ => Iff.rfl, fun _ hx _ => .refl hx, fun _ _ _ => rfl⟩

theorem Resized.trans (r1 : h.Resized v h₁ v₁ c k₁) (r2 : h₁.Resized v₁ h₂ v₂ c k₂) (h1 : k ≤ k₁) (h2 : k ≤ k₂) :
    h.Resized v h₂ v₂ c k where
  tiled := r2.tiled
  start := r2.start.trans r1.start
  used := fun x => (r2.used x).trans (r1.used x)
  same := fun x hx hne => (r1.same x hx hne).trans (r2.same x ((r1.used x).mpr hx) hne)
  holds := fun w hw hw' => (r2.holds w hw (by omega)).trans (r1.holds w hw (by omega))

theorem Reshaped.resized (r : h.Reshaped v h' v') (hc : v.Used c) (hk : k ≤ h.size c) : h.Resized v h' v' c k where
  tiled := r.tiled
  start := r.start
  used := r.used
  same := fun x hx _ => r.same x hx
  holds := fun w hw hw' => (r.same c hc).2.2 w hw (by omega)

namespace Tiled

theorem shrink (t : h.Tiled v) (hc : v.Used c) (hs : 16 ≤ s) (hs16 : 16 ∣ s) (hsc : s ≤ h.size c)
    (hh' : h' = Libc.splitChunk h c s) :
    ∃ v', h.Resized v h' v' c s ∧ v'.last = v.last ∧ s ≤ h'.size c ∧
      (v.Coalesced → (v'.Coalesced ↔ ¬(s + 48 ≤ h.size c ∧ h.isFree (h.next c) ≠ 0))) := by
  subst hh'
  rcases lt_or_ge (h.size c) (s + 48) with hroom | hroom
  · rw [t.split_small hc.1 hsc hroom]
    exact ⟨v, .refl t, rfl, hsc, fun hco => iff_of_true hco fun hsplit => absurd hsplit.1 (by omega)⟩
  · obtain ⟨b, hcb⟩ := t.exists_next hc.1.1 hc.1.2.2
    obtain ⟨hnext, -, hsa⟩ := t.step c b hcb
    obtain ⟨hnew, t1, hsize, hholds, hsame⟩ := t.cutoff hcb hc.1 rfl hs hs16 hroom rfl
    rw [t.libc_split hcb rfl hroom]
    have hmid : Next (insert (c + 32 + s) v.chunks) (c + 32 + s) b := hcb.insert_between (by omega) (by omega)
    refine ⟨_, ⟨t1, rfl, fun x => ?_, hsame, hholds hc⟩, rfl, hsize.symm.le, fun hco => ?_⟩
    · have hfresh : ∀ x ∈ v.chunks, x ≠ c + 32 + s := fun x hx heq => hnew (heq ▸ hx)
      unfold Tiling.Used Tiling.Inner
      simp only [List.mem_cons, Finset.mem_insert]
      grind
    rw [hnext, t.isFree_ne_zero hcb.right]
    constructor
    · intro hco' hfree
      exact hco' _ b hmid List.mem_cons_self (List.mem_cons_of_mem _ hfree.2)
    · intro hfree x y hxy hx hy
      have hold : ∀ {z}, z ∈ v.chunks → z ∈ (c + 32 + s) :: v.free → z ∈ v.free := fun hz hzf =>
        (List.mem_cons.mp hzf).resolve_left fun heq => hnew (heq ▸ hz)
      rcases hcb.of_insert (by omega) (by omega) hxy with ⟨rfl, -⟩ | ⟨-, rfl⟩ | ⟨hxy', -, -⟩
      · exact hc.2 (hold hcb.left hx)
      · exact hfree ⟨hroom, hold hcb.right hy⟩
      · exact hco x y hxy' (hold hxy'.left hx) (hold hxy'.right hy)

theorem widen (t : h.Tiled v) (hc : v.Used c) (hcb : Next v.chunks c b) (hh' : h' = Libc.glueNext h c) :
    ∃ v', h.Resized v h' v' c (h.size c) ∧ v'.last = v.last ∧ h.size c ≤ h'.size c ∧
      (b ∈ v.free → h'.size c = h.size c + (h.size b + 32)) ∧
      (v.Coalesced → v'.Coalesced ∧ h'.isFree (h'.next c) = 0) := by
  subst hh'
  have hnext := (t.step c b hcb).1
  have hflag := (t.isFree_ne_zero hc.1.1).not.mpr hc.2
  have hbflag := t.isFree_ne_zero hcb.right
  unfold Libc.glueNext
  simp only [hnext, if_neg hflag]
  by_cases hbf : b ∈ v.free
  · have hin := t.inner b hbf
    obtain ⟨d, hbd⟩ := t.exists_next hin.1 hin.2.2
    have t1 := t.remove hbf
    have hsc := (t1.step c b hcb).2.2
    have hjoin := joinNext_eq (t1.step c b hcb).1 (t1.step b d hbd).1 (by omega) (t1.sizes_lt hcb hbd)
    obtain ⟨t', hsize, hholds, hsame⟩ := t.absorb hcb hbd hc hbf rfl
    rw [if_pos (hbflag.mpr hbf), hjoin]
    have hcfree : c ∉ v.free.erase b := fun hf => hc.2 (List.mem_of_mem_erase hf)
    refine ⟨_, ⟨t', rfl, fun x => ?_, hsame, hholds⟩, rfl, by omega, fun _ => hsize, fun hco => ⟨?_, ?_⟩⟩
    · unfold Tiling.Used Tiling.Inner
      simp only [t.nodup.mem_erase_iff, Finset.mem_erase]
      grind
    · intro x y hxy hx hy
      rcases hcb.of_erase hbd hxy with ⟨rfl, -⟩ | ⟨hxy', -⟩
      · exact hcfree hx
      · exact hco x y hxy' (List.mem_of_mem_erase hx) (List.mem_of_mem_erase hy)
    · -- What follows now is what followed the free chunk.
      obtain ⟨y, hy⟩ := t'.exists_next (Finset.mem_erase.mpr ⟨hcb.lt.ne, hc.1.1⟩) hc.1.2.2
      obtain rfl : y = d := (hcb.of_erase hbd hy).elim (fun heq => heq.2) fun hold => absurd rfl hold.2.1
      rw [(t'.step c y hy).1]
      refine not_not.mp ((t'.isFree_ne_zero hy.right).not.mpr fun hf => ?_)
      exact hco b y hbd hbf (List.mem_of_mem_erase hf)
  · rw [if_neg (hbflag.not.mpr hbf)]
    refine ⟨v, .refl t, rfl, le_rfl, fun hf => absurd hf hbf, fun hco => ⟨hco, ?_⟩⟩
    rw [hnext]
    exact not_not.mp (hbflag.not.mpr hbf)

theorem data (t : h.Tiled v) (hc : v.Used c) (hlist : h'.freeList = h.freeList)
    (hmem : ∀ w, w < c + 32 ∨ c + 32 + h.size c ≤ w → h'.mem w = h.mem w) : h.Resized v h' v c 0 := by
  have hhead : ∀ x ∈ v.chunks, ∀ w < 32, h'.mem (x + w) = h.mem (x + w) := by
    intro x hx w hw
    have := t.region hx hc.1.1
    exact hmem _ (by omega)
  have hsize : ∀ x ∈ v.chunks, h'.size x = h.size x := fun x hx => hhead x hx 16 (by omega)
  have hother : ∀ x ∈ v.chunks, x ≠ c → ∀ w, x + 32 ≤ w → w < x + 32 + h.size x → h'.mem w = h.mem w := by
    intro x hx hne w hw hw'
    have := t.region hx hc.1.1
    exact hmem w (by omega)
  have hlink : ∀ x ∈ v.free, h'.prevFree x = h.prevFree x ∧ h'.nextFree x = h.nextFree x := by
    intro x hx
    have hin := t.inner x hx
    have hroom := t.room x hin
    have hne : x ≠ c := fun heq => hc.2 (heq ▸ hx)
    exact ⟨hother x hin.1 hne _ (by omega) (by omega), hother x hin.1 hne _ (by omega) (by omega)⟩
  refine ⟨{ t with
    front := (hhead v.start t.start_mem 0 (by omega)).trans t.front
    rear_next := (hhead v.last t.last_mem 8 (by omega)).trans t.rear_next
    rear_size := (hsize v.last t.last_mem).trans t.rear_size
    step := fun a b hab => ?_
    room := fun x hx => (t.room x hx).trans_eq (hsize x hx.1).symm
    flag := fun x hx => (hhead x hx 24 (by omega)).trans (t.flag x hx)
    list := t.list.congr (fun x hx => (hlink x hx).2) fun x hx => (hlink x hx).1
    head := hlist.trans t.head }, rfl, fun _ => Iff.rfl, fun x hx hne => ?_, fun w hw hw' => by omega⟩
  · obtain ⟨hnext, hprev, hend⟩ := t.step a b hab
    refine ⟨(hhead a hab.left 8 (by omega)).trans hnext, (hhead b hab.right 0 (by omega)).trans hprev, ?_⟩
    rw [hsize a hab.left]
    exact hend
  · exact ⟨hx, hsize x hx.1.1, hother x hx.1.1 hne⟩

theorem moveGuard_still (t : h.Tiled v) (glue : Arena → Nat → Arena) : (h.moveGuard glue v.last v.last).2 = v.last := by
  have hfar : h.freeList ≠ 0 → h.freeList + 48 ≤ v.last ∨ v.last + 32 ≤ h.freeList := by
    intro h0
    have hin := t.inner _ (t.freeList_mem h0)
    have := t.apart t.last_mem hin
    have := hin.2.2
    omega
  obtain ⟨g, hg⟩ : ∃ g, g = ((((h.setNext v.last v.last).setSize v.last
      ((h.setNext v.last v.last).chunkSize v.last)).setFree v.last 1).setHeader v.last v.last 0 0 0) := ⟨_, rfl⟩
  have hprev : (g.insertFreeChunk v.last).prev v.last = v.last := by
    refine (insertFreeChunk_mem_of_ne (by omega) (by omega) (by omega) fun h0 => ?_).trans ?_
    · rw [hg] at h0 ⊢
      have := hfar h0
      change v.last ≠ h.freeList + 32
      omega
    · rw [hg, setHeader_mem, if_neg (by omega), if_neg (by omega), if_neg (by omega), if_pos rfl]
  have hfree : (g.insertFreeChunk v.last).isFree v.last = 1 := by
    refine (insertFreeChunk_mem ..).trans ?_
    rw [if_neg, if_neg (by omega), if_neg (by omega), if_pos rfl]
    rintro ⟨h0, hw⟩
    rw [hg] at h0 hw
    have := hfar h0
    change v.last + 24 = h.freeList + 32 at hw
    omega
  unfold Arena.moveGuard
  simp only [← hg, hprev, hfree, ne_eq, one_ne_zero, not_false_eq_true, if_true]

end Tiled
end Novino.Mem.Arena
