import Novino.Mem.Arena
import Novino.Lib.Links
import Novino.Lib.Neighbours

/-! The headers and the free list of a well-formed heap, and how the steps of the two allocators change them. -/

namespace Novino.Mem

structure Tiling where
  start : Nat
  last : Nat
  chunks : Finset Nat
  free : List Nat

namespace Tiling

def Inner (v : Tiling) (c : Nat) : Prop := c ∈ v.chunks ∧ c ≠ v.start ∧ c ≠ v.last

def Used (v : Tiling) (c : Nat) : Prop := v.Inner c ∧ c ∉ v.free

end Tiling

/-- The headers tile the memory from the front guard to the rear guard, and the free list holds the free chunks. -/
structure Arena.Tiled (h : Arena) (v : Tiling) : Prop where
  pos : 0 < v.start
  lt : v.start < v.last
  bound : v.last + 32 < 2 ^ 64
  start_mem : v.start ∈ v.chunks
  last_mem : v.last ∈ v.chunks
  low : ∀ c ∈ v.chunks, v.start ≤ c
  high : ∀ c ∈ v.chunks, c ≤ v.last
  aligned : ∀ c ∈ v.chunks, 16 ∣ c
  front : h.prev v.start = 0
  rear_next : h.next v.last = 0
  rear_size : h.size v.last = 0
  step : ∀ a b, Next v.chunks a b → h.next a = b ∧ h.prev b = a ∧ a + 32 + h.size a = b
  room : ∀ c, v.Inner c → 16 ≤ h.size c
  flag : ∀ c ∈ v.chunks, h.isFree c = if c ∈ v.free then 1 else 0
  inner : ∀ c ∈ v.free, v.Inner c
  nodup : v.free.Nodup
  list : Linking h.nextFree h.prevFree v.free
  head : h.freeList = v.free.headD 0

namespace Arena.Tiled

variable {h h' : Arena} {v : Tiling} {a b c d x y : Nat}

section
variable (t : h.Tiled v) (hx : x ∈ v.chunks)
include t hx

theorem exists_next (hl : x ≠ v.last) : ∃ y, Next v.chunks x y :=
  Next.exists_right hx t.last_mem (lt_of_le_of_ne (t.high x hx) hl)

theorem exists_prev (hs : x ≠ v.start) : ∃ y, Next v.chunks y x :=
  Next.exists_left hx t.start_mem (lt_of_le_of_ne (t.low x hx) (Ne.symm hs))

theorem end_le (hy : y ∈ v.chunks) (hlt : x < y) : x + 32 + h.size x ≤ y := by
  obtain ⟨z, hz⟩ := Next.exists_right hx hy hlt
  rw [(t.step x z hz).2.2]
  exact (hz.between hy).resolve_left (not_le.mpr hlt)

theorem apart (hy : v.Inner y) : x = y ∨ x + 32 ≤ y ∨ y + 48 ≤ x := by
  have hroom := t.room y hy
  rcases lt_trichotomy x y with hlt | heq | hlt
  · have := t.end_le hx hy.1 hlt
    omega
  · exact .inl heq
  · have := t.end_le hy.1 hx hlt
    omega

theorem ne_zero : x ≠ 0 := by
  have := t.pos
  have := t.low x hx
  omega

end

theorem freeList_cases (t : h.Tiled v) : v.free = [] ∧ h.freeList = 0 ∨
    ∃ l, v.free = h.freeList :: l ∧ v.Inner h.freeList := by
  have hhead := t.head
  cases hl : v.free with
  | nil => exact .inl ⟨rfl, by rw [hhead, hl]; rfl⟩
  | cons x l =>
    rw [hl, List.headD_cons] at hhead
    refine .inr ⟨l, by rw [hhead], hhead ▸ t.inner x (by rw [hl]; exact List.mem_cons_self)⟩

theorem relist (t : h.Tiled v) {l : List Nat}
    (hkeep : ∀ c ∈ v.chunks, h'.prev c = h.prev c ∧ h'.next c = h.next c ∧ h'.size c = h.size c)
    (hflag : ∀ c ∈ v.chunks, h'.isFree c = if c ∈ l then 1 else 0) (hinner : ∀ c ∈ l, v.Inner c) (hnodup : l.Nodup)
    (hlist : Linking h'.nextFree h'.prevFree l) (hhead : h'.freeList = l.headD 0) :
    h'.Tiled { v with free := l } where
  pos := t.pos
  lt := t.lt
  bound := t.bound
  start_mem := t.start_mem
  last_mem := t.last_mem
  low := t.low
  high := t.high
  aligned := t.aligned
  front := (hkeep _ t.start_mem).1.trans t.front
  rear_next := (hkeep _ t.last_mem).2.1.trans t.rear_next
  rear_size := (hkeep _ t.last_mem).2.2.trans t.rear_size
  step := by
    intro a b hab
    rw [(hkeep a hab.left).2.1, (hkeep b hab.right).1, (hkeep a hab.left).2.2]
    exact t.step a b hab
  room := fun c hc => (hkeep c hc.1).2.2 ▸ t.room c hc
  flag := hflag
  inner := hinner
  nodup := hnodup
  list := hlist
  head := hhead

end Arena.Tiled

/-! ### A chunk enters the free list -/

namespace Arena

variable (h : Arena)

@[simp] theorem write_mem (a v w : Nat) : (h.write a v).mem w = if w = a then v else h.mem w :=
  Function.update_apply ..

theorem write_of_ne {h : Arena} {a v w : Nat} (hw : w ≠ a) : (h.write a v).mem w = h.mem w :=
  Function.update_of_ne hw ..

@[simp] theorem write_freeList (a v : Nat) : (h.write a v).freeList = h.freeList := rfl

theorem insertFreeChunk_mem (c w : Nat) : (h.insertFreeChunk c).mem w =
    if h.freeList ≠ 0 ∧ w = h.freeList + 32 then c else if w = c + 32 then 0
    else if w = c + 40 then h.freeList else if w = c + 24 then 1 else h.mem w := by
  unfold insertFreeChunk
  by_cases h0 : h.freeList = 0
  · simp [h0, setFree, setNextFree, setPrevFree]
  · simp [h0, setFree, setNextFree, setPrevFree]

theorem insertFreeChunk_mem_of_ne {h : Arena} {c w : Nat} (h1 : w ≠ c + 24) (h2 : w ≠ c + 32) (h3 : w ≠ c + 40)
    (h4 : h.freeList ≠ 0 → w ≠ h.freeList + 32) : (h.insertFreeChunk c).mem w = h.mem w := by
  rw [insertFreeChunk_mem, if_neg fun hw => h4 hw.1 hw.2, if_neg h2, if_neg h3, if_neg h1]

end Arena

namespace Arena.Tiled

variable {h h' : Arena} {v : Tiling} {a b c d x y : Nat}

theorem freeList_mem (t : h.Tiled v) (h0 : h.freeList ≠ 0) : h.freeList ∈ v.free := by
  rcases t.freeList_cases with ⟨-, hf⟩ | ⟨l, hf, -⟩
  · exact absurd hf h0
  · exact hf ▸ List.mem_cons_self

theorem push_head (t : h.Tiled v) (hc : v.Inner c) (hx : x ∈ v.chunks) {k : Nat} (hk : k < 32)
    (hne : x + k ≠ c + 24) : (h.insertFreeChunk c).mem (x + k) = h.mem (x + k) := by
  have hxc := t.apart hx hc
  refine insertFreeChunk_mem_of_ne hne (by omega) (by omega) fun h0 => ?_
  have hxf := t.apart hx (t.inner _ (t.freeList_mem h0))
  omega

theorem push (t : h.Tiled v) (hc : v.Used c) : (h.insertFreeChunk c).Tiled { v with free := c :: v.free } := by
  obtain ⟨hc, hcf⟩ := hc
  have hhead : h.freeList ≠ 0 → h.freeList ≠ c := fun h0 heq => hcf (heq ▸ t.freeList_mem h0)
  have hnext : ∀ x ∈ v.free, (h.insertFreeChunk c).mem (x + 40) = h.mem (x + 40) := by
    intro x hx
    have hne : x ≠ c := fun heq => hcf (heq ▸ hx)
    have hxc := t.apart (t.inner x hx).1 hc
    have hcx := t.apart hc.1 (t.inner x hx)
    refine insertFreeChunk_mem_of_ne (by omega) (by omega) (by omega) fun h0 => ?_
    have hxf := t.apart (t.inner x hx).1 (t.inner _ (t.freeList_mem h0))
    have hfx := t.apart (t.inner _ (t.freeList_mem h0)).1 (t.inner x hx)
    omega
  have hprev : ∀ x ∈ v.free, x ≠ h.freeList → (h.insertFreeChunk c).mem (x + 32) = h.mem (x + 32) := by
    intro x hx hxf
    have hne : x ≠ c := fun heq => hcf (heq ▸ hx)
    have hxc := t.apart (t.inner x hx).1 hc
    have hcx := t.apart hc.1 (t.inner x hx)
    exact insertFreeChunk_mem_of_ne (by omega) (by omega) (by omega) fun h0 => by omega
  refine t.relist ?_ ?_ ?_ (List.nodup_cons.mpr ⟨hcf, t.nodup⟩) ?_ rfl
  · intro x hx
    have hxc := t.apart hx hc
    exact ⟨t.push_head hc hx (k := 0) (by omega) (by omega), t.push_head hc hx (k := 8) (by omega) (by omega),
      t.push_head hc hx (k := 16) (by omega) (by omega)⟩
  · intro x hx
    have hxc := t.apart hx hc
    by_cases heq : x = c
    · subst heq
      rw [if_pos List.mem_cons_self]
      unfold isFree
      rw [insertFreeChunk_mem, if_neg, if_neg (by omega), if_neg (by omega), if_pos rfl]
      rintro ⟨h0, heq⟩
      have hxf := t.apart hx (t.inner _ (t.freeList_mem h0))
      omega
    · simp only [List.mem_cons, heq, false_or]
      rw [← t.flag x hx]
      exact t.push_head hc hx (by omega) (by omega)
  · intro x hx
    rcases List.mem_cons.mp hx with rfl | hx
    · exact hc
    · exact t.inner x hx
  · refine t.list.push hnext ?_ ?_ ?_ ?_
    · intro x hx
      refine hprev x (List.mem_of_mem_tail hx) ?_
      rcases t.freeList_cases with ⟨hnil, -⟩ | ⟨l, hl, -⟩
      · simp [hnil] at hx
      · have hnd := t.nodup
        rw [hl] at hx hnd
        rintro rfl
        exact (List.nodup_cons.mp hnd).1 hx
    · intro x hx
      rcases t.freeList_cases with ⟨hnil, -⟩ | ⟨l, hl, hin⟩
      · simp [hnil] at hx
      · rw [hl, List.head?_cons, Option.mem_some_iff] at hx
        subst hx
        unfold prevFree
        rw [insertFreeChunk_mem, if_pos ⟨t.ne_zero hin.1, rfl⟩]
    · rw [← t.head]
      unfold nextFree
      rw [insertFreeChunk_mem, if_neg, if_neg (by omega), if_pos rfl]
      rintro ⟨h0, heq⟩
      have hcf := t.apart hc.1 (t.inner _ (t.freeList_mem h0))
      have := hhead h0
      omega
    · unfold prevFree
      rw [insertFreeChunk_mem, if_neg, if_pos rfl]
      rintro ⟨h0, heq⟩
      have := hhead h0
      omega

end Arena.Tiled

/-! ### A chunk leaves the free list -/

namespace Arena

theorem unlink_mem {h : Arena} {c : Nat} (hp : h.prevFree c ≠ 0 → h.prevFree c ≠ c ∧ h.prevFree c + 8 ≠ c) (w : Nat) :
    (h.unlink c).mem w =
      if h.nextFree c ≠ 0 ∧ w = h.nextFree c + 32 then h.prevFree c
      else if h.prevFree c ≠ 0 ∧ w = h.prevFree c + 40 then h.nextFree c else h.mem w := by
  unfold unlink
  by_cases h0 : h.prevFree c = 0
  · by_cases hn : h.nextFree c = 0 <;> simp [h0, hn, setPrevFree]
  · obtain ⟨hne, hne'⟩ := hp h0
    -- The write to the chunk before does not touch the links of the chunk itself.
    have hread : ∀ k, k = 32 ∨ k = 40 →
        (h.setNextFree (h.prevFree c) (h.nextFree c)).mem (c + k) = h.mem (c + k) := by
      intro k hk
      rw [setNextFree, write_mem, if_neg (by omega)]
    have hn' : (h.setNextFree (h.prevFree c) (h.nextFree c)).nextFree c = h.nextFree c := hread 40 (.inr rfl)
    have hp' : (h.setNextFree (h.prevFree c) (h.nextFree c)).prevFree c = h.prevFree c := hread 32 (.inl rfl)
    simp only [ne_eq, h0, not_false_eq_true, if_true, hn', hp', true_and]
    by_cases hn : h.nextFree c = 0 <;> simp [hn, setNextFree, setPrevFree]

theorem unlink_freeList (h : Arena) (c : Nat) : (h.unlink c).freeList = h.freeList := by
  unfold unlink
  simp only
  split <;> split <;> rfl

theorem removeFreeChunk_mem {h : Arena} {c : Nat} (hp : h.prevFree c ≠ 0 → h.prevFree c ≠ c ∧ h.prevFree c + 8 ≠ c)
    (w : Nat) : (h.removeFreeChunk c).mem w =
      if h.nextFree c ≠ 0 ∧ w = h.nextFree c + 32 then h.prevFree c
      else if h.prevFree c ≠ 0 ∧ w = h.prevFree c + 40 then h.nextFree c
      else if w = c + 24 then 0 else h.mem w := by
  have hread : ∀ g : Arena,
    g.mem = (h.setFree c 0).mem → g.prevFree c = h.prevFree c ∧ g.nextFree c = h.nextFree c := by
    intro g hg
    simp [prevFree, nextFree, hg, setFree]
  have hmain : ∀ g : Arena, g.mem = (h.setFree c 0).mem → (g.unlink c).mem w =
      if h.nextFree c ≠ 0 ∧ w = h.nextFree c + 32 then h.prevFree c
      else if h.prevFree c ≠ 0 ∧ w = h.prevFree c + 40 then h.nextFree c
      else if w = c + 24 then 0 else h.mem w := by
    intro g hg
    obtain ⟨hgp, hgn⟩ := hread g hg
    rw [unlink_mem (by rw [hgp]; exact hp), hgp, hgn, hg, setFree, write_mem]
  unfold removeFreeChunk
  by_cases hf : (h.setFree c 0).freeList = c
  · simp only [hf, if_true]
    exact hmain _ rfl
  · simp only [hf, if_false]
    exact hmain _ rfl

theorem removeFreeChunk_freeList (h : Arena) (c : Nat) :
    (h.removeFreeChunk c).freeList = if h.freeList = c then h.nextFree c else h.freeList := by
  have hnext : (h.setFree c 0).nextFree c = h.nextFree c := by simp [setFree, nextFree]
  unfold removeFreeChunk
  rw [unlink_freeList]
  by_cases hf : h.freeList = c
  · rw [if_pos hf, if_pos (show (h.setFree c 0).freeList = c from hf)]
    exact hnext
  · rw [if_neg hf, if_neg (show (h.setFree c 0).freeList ≠ c from hf)]
    rfl

end Arena

namespace Arena.Tiled

variable {h h' : Arena} {v : Tiling} {a b c d x y : Nat}

section
variable (t : h.Tiled v)
include t

theorem cut (hc : c ∈ v.free) : ∃ l r, v.free = l ++ c :: r ∧ c ∉ l ∧ c ∉ r ∧ (∀ x ∈ l, x ∉ r) ∧
    h.nextFree c = r.headD 0 ∧ h.prevFree c = l.getLastD 0 := by
  obtain ⟨l, r, hlr⟩ := List.append_of_mem hc
  have hnd := t.nodup
  have hlist := t.list
  rw [hlr] at hnd hlist
  obtain ⟨hn, hp⟩ := hlist.mid (t.ne_zero (t.inner c hc).1)
  obtain ⟨-, hnd', hdis⟩ := List.nodup_append.mp hnd
  refine ⟨l, r, hlr, fun hl => hdis c hl c List.mem_cons_self rfl, (List.nodup_cons.mp hnd').1, ?_, hn, hp⟩
  exact fun x hx hxr => hdis x hx x (List.mem_cons_of_mem _ hxr) rfl

theorem links (hc : c ∈ v.free) : (h.prevFree c ≠ 0 → h.prevFree c ∈ v.free ∧ h.prevFree c ≠ c) ∧
    (h.nextFree c ≠ 0 → h.nextFree c ∈ v.free ∧ h.nextFree c ≠ c) := by
  obtain ⟨l, r, hlr, hcl, hcr, -, hn, hp⟩ := t.cut hc
  rw [hlr, hn, hp]
  constructor
  · intro h0
    have hmem := Linking.getLastD_mem h0
    exact ⟨List.mem_append_left _ hmem, fun heq => hcl (heq ▸ hmem)⟩
  · intro h0
    have hmem := Linking.headD_mem h0
    exact ⟨List.mem_append_right _ (List.mem_cons_of_mem _ hmem), fun heq => hcr (heq ▸ hmem)⟩

theorem removeFreeChunk_mem (hc : c ∈ v.free) (w : Nat) : (h.removeFreeChunk c).mem w =
    if h.nextFree c ≠ 0 ∧ w = h.nextFree c + 32 then h.prevFree c
    else if h.prevFree c ≠ 0 ∧ w = h.prevFree c + 40 then h.nextFree c else if w = c + 24 then 0 else h.mem w := by
  refine Arena.removeFreeChunk_mem (fun h0 => ?_) w
  obtain ⟨hmem, hne⟩ := (t.links hc).1 h0
  have := t.apart (t.inner _ hmem).1 (t.inner c hc)
  omega

theorem links_apart (hx : x ∈ v.free) (hy : y ∈ v.free) (hne : x ≠ y) : x + 48 ≤ y ∨ y + 48 ≤ x := by
  have hxy := t.apart (t.inner x hx).1 (t.inner y hy)
  have hyx := t.apart (t.inner y hy).1 (t.inner x hx)
  omega

section
variable (hc : c ∈ v.free)
include hc

theorem remove_other {w : Nat} (hw : w ≠ c + 24)
    (hn : h.nextFree c ≠ 0 → w ≠ h.nextFree c + 32) (hp : h.prevFree c ≠ 0 → w ≠ h.prevFree c + 40) :
    (h.removeFreeChunk c).mem w = h.mem w := by
  rw [t.removeFreeChunk_mem hc, if_neg fun hw => hn hw.1 hw.2, if_neg fun hw => hp hw.1 hw.2, if_neg hw]

theorem remove_head (hx : x ∈ v.chunks) {k : Nat} (hk : k < 32)
    (hne : x + k ≠ c + 24) : (h.removeFreeChunk c).mem (x + k) = h.mem (x + k) := by
  obtain ⟨hpf, hnf⟩ := t.links hc
  refine t.remove_other hc hne (fun h0 => ?_) fun h0 => ?_
  · have := t.apart hx (t.inner _ (hnf h0).1)
    omega
  · have := t.apart hx (t.inner _ (hpf h0).1)
    omega

theorem linking_remove : Linking (h.removeFreeChunk c).nextFree (h.removeFreeChunk c).prevFree (v.free.erase c) := by
  obtain ⟨hpf, hnf⟩ := t.links hc
  have hlist := t.list
  obtain ⟨l, r, hlr, hcl, hcr, hdis, hn, hp⟩ := t.cut hc
  have hfree : ∀ {x}, x ∈ l ∨ x ∈ r → x ∈ v.free ∧ x ≠ c := by
    intro x hx
    rw [hlr]
    rcases hx with hx | hx
    · exact ⟨List.mem_append_left _ hx, fun heq => hcl (heq ▸ hx)⟩
    · exact ⟨List.mem_append_right _ (List.mem_cons_of_mem _ hx), fun heq => hcr (heq ▸ hx)⟩
  rw [hlr, List.erase_append_right _ hcl, List.erase_cons_head]
  rw [hlr] at hlist
  refine hlist.remove hcl hcr hdis ?_ ?_ ?_ ?_
  · rw [← hp, ← hn]
    intro h0
    refine (t.removeFreeChunk_mem hc _).trans ?_
    rw [if_neg, if_pos ⟨h0, rfl⟩]
    rintro ⟨hn0, heq⟩
    have := t.links_apart (hpf h0).1 (hnf hn0).1
    omega
  · rw [← hp, ← hn]
    intro h0
    exact (t.removeFreeChunk_mem hc _).trans (if_pos ⟨h0, rfl⟩)
  · rw [← hp]
    intro x hx hxp
    obtain ⟨hxf, hxc⟩ := hfree hx
    have := t.links_apart hxf hc hxc
    refine t.remove_other hc (by omega) (fun h0 => ?_) fun _ => by omega
    have := t.links_apart hxf (hnf h0).1
    omega
  · rw [← hn]
    intro x hx hxn
    obtain ⟨hxf, hxc⟩ := hfree hx
    have := t.links_apart hxf hc hxc
    refine t.remove_other hc (by omega) (fun _ => by omega) fun h0 => ?_
    have := t.links_apart hxf (hpf h0).1
    omega

theorem remove : (h.removeFreeChunk c).Tiled { v with free := v.free.erase c } := by
  have hin := t.inner c hc
  obtain ⟨hpf, hnf⟩ := t.links hc
  have hmem : ∀ {x}, x ∈ v.free.erase c ↔ x ≠ c ∧ x ∈ v.free := t.nodup.mem_erase_iff
  refine t.relist ?_ ?_ (fun x hx => t.inner x (hmem.mp hx).2) (t.nodup.erase c) ?_ ?_
  · intro x hx
    have hxc := t.apart hx hin
    exact ⟨t.remove_head hc hx (k := 0) (by omega) (by omega), t.remove_head hc hx (k := 8) (by omega) (by omega),
      t.remove_head hc hx (k := 16) (by omega) (by omega)⟩
  · intro x hx
    have hxc := t.apart hx hin
    by_cases heq : x = c
    · subst heq
      rw [if_neg fun hx => (hmem.mp hx).1 rfl]
      unfold isFree
      rw [t.removeFreeChunk_mem hc, if_neg, if_neg, if_pos rfl]
      · rintro ⟨h0, heq⟩
        have := t.apart hx (t.inner _ (hpf h0).1)
        omega
      · rintro ⟨h0, heq⟩
        have := t.apart hx (t.inner _ (hnf h0).1)
        omega
    · simp only [hmem, ne_eq, heq, not_false_eq_true, true_and]
      rw [← t.flag x hx]
      exact t.remove_head hc hx (by omega) (by omega)
  · exact t.linking_remove hc
  · rw [removeFreeChunk_freeList]
    obtain ⟨l, r, hlr, hcl, -, -, hn, -⟩ := t.cut hc
    rw [hlr, List.erase_append_right _ hcl, List.erase_cons_head, t.head, hlr]
    cases l with
    | nil => rw [List.nil_append, List.headD_cons, if_pos rfl, hn]; rfl
    | cons y l =>
      rw [List.cons_append, List.headD_cons, List.cons_append, List.headD_cons]
      exact if_neg (List.ne_of_not_mem_cons hcl).symm

end

end

end Arena.Tiled

namespace Arena

variable (h : Arena)

/-- The headers after chunk `b`, which lies between `a` and `d`, was added to `a`. -/
def merge (a b d : Nat) : Arena :=
  ((h.setSize a (h.size a + (h.size b + 32))).setNext a d).setPrev d a

theorem merge_mem (a b d w : Nat) : (h.merge a b d).mem w =
    if w = d then a else if w = a + 8 then d else if w = a + 16 then h.size a + (h.size b + 32) else h.mem w := by
  simp [merge, setSize, setNext, setPrev]

theorem merge_freeList (a b d : Nat) : (h.merge a b d).freeList = h.freeList := rfl

theorem merge_of_ne {h : Arena} {a b d w : Nat} (hw : w ≠ d ∧ w ≠ a + 8 ∧ w ≠ a + 16) :
    (h.merge a b d).mem w = h.mem w := by
  rw [merge_mem, if_neg hw.1, if_neg hw.2.1, if_neg hw.2.2]

theorem merge_size {h : Arena} {a b d : Nat} (hd : a + 16 ≠ d) :
    (h.merge a b d).size a = h.size a + (h.size b + 32) := by
  refine (h.merge_mem a b d _).trans ?_
  rw [if_neg hd, if_neg (by omega), if_pos rfl]

end Arena

namespace Arena.Tiled

variable {h h' : Arena} {v : Tiling} {a b c d x y : Nat}

theorem heads_apart (t : h.Tiled v) (hx : x ∈ v.chunks) (hy : y ∈ v.chunks) : x = y ∨ x + 32 ≤ y ∨ y + 32 ≤ x := by
  rcases lt_trichotomy x y with hlt | heq | hlt
  · have := t.end_le hx hy hlt
    omega
  · exact .inl heq
  · have := t.end_le hy hx hlt
    omega

theorem merge (t : h.Tiled v) (hab : Next v.chunks a b) (hbd : Next v.chunks b d) (ha : v.Used a) (hb : v.Used b) :
    (h.merge a b d).Tiled { v with chunks := v.chunks.erase b } := by
  have hlab := hab.lt
  have hlbd := hbd.lt
  obtain ⟨-, -, hsa⟩ := t.step a b hab
  obtain ⟨-, -, hsb⟩ := t.step b d hbd
  have hmem : ∀ {c}, c ∈ v.chunks.erase b → c ∈ v.chunks ∧ c ≠ b := fun hc =>
    ⟨Finset.mem_of_mem_erase hc, Finset.ne_of_mem_erase hc⟩
  -- of the headers only the size and the next chunk of `a` and the previous chunk of `d` change
  have hold : ∀ x ∈ v.chunks, ∀ k, 0 < k ∧ k < 32 ∧ (x = a → k = 24) → (h.merge a b d).mem (x + k) = h.mem (x + k) := by
    intro x hx k hk
    have hxa := t.heads_apart hx hab.left
    have hxd := t.heads_apart hx hbd.right
    exact merge_of_ne (by omega)
  have hlink : ∀ x ∈ v.free, ∀ k, k = 32 ∨ k = 40 → (h.merge a b d).mem (x + k) = h.mem (x + k) := by
    intro x hx k hk
    have hax := t.apart hab.left (t.inner x hx)
    have hdx := t.apart hbd.right (t.inner x hx)
    exact merge_of_ne (by omega)
  have hlow := t.low a hab.left
  have hhigh := t.high d hbd.right
  exact {
    pos := t.pos
    lt := t.lt
    bound := t.bound
    start_mem := Finset.mem_erase.mpr ⟨hb.1.2.1.symm, t.start_mem⟩
    last_mem := Finset.mem_erase.mpr ⟨hb.1.2.2.symm, t.last_mem⟩
    low := fun c hc => t.low c (hmem hc).1
    high := fun c hc => t.high c (hmem hc).1
    aligned := fun c hc => t.aligned c (hmem hc).1
    front := (merge_of_ne (by simp only; omega)).trans t.front
    rear_next := (hold _ t.last_mem 8 (by omega)).trans t.rear_next
    rear_size := (hold _ t.last_mem 16 (by omega)).trans t.rear_size
    step := by
      intro x y hxy
      rcases hab.of_erase hbd hxy with ⟨rfl, rfl⟩ | ⟨hxy', hxa, -, -, hyd⟩
      · refine ⟨?_, ?_, ?_⟩
        · unfold Arena.next
          rw [merge_mem, if_neg (by omega), if_pos rfl]
        · unfold Arena.prev
          rw [merge_mem, if_pos rfl]
        · rw [merge_size (by omega)]
          omega
      · have hya := t.heads_apart hxy'.right hab.left
        obtain ⟨h1, h2, h3⟩ := t.step x y hxy'
        have h2' : (h.merge a b d).prev y = h.prev y := merge_of_ne (by omega)
        exact ⟨(hold x hxy'.left 8 (by omega)).trans h1, h2'.trans h2,
          (congrArg (x + 32 + ·) (hold x hxy'.left 16 (by omega))).trans h3⟩
    room := by
      rintro c ⟨hc, hs, hl⟩
      by_cases hca : c = a
      · subst hca
        rw [merge_size (by omega)]
        exact Nat.le_add_right_of_le (t.room c ha.1)
      · exact (t.room c ⟨(hmem hc).1, hs, hl⟩).trans_eq (hold c (hmem hc).1 16 (by omega)).symm
    flag := fun c hc => (hold c (hmem hc).1 24 (by omega)).trans (t.flag c (hmem hc).1)
    inner := by
      intro c hc
      obtain ⟨hc', hs, hl⟩ := t.inner c hc
      exact ⟨Finset.mem_erase.mpr ⟨fun heq => hb.2 (heq ▸ hc), hc'⟩, hs, hl⟩
    nodup := t.nodup
    list := t.list.congr (fun x hx => hlink x hx 40 (.inr rfl)) fun x hx => hlink x hx 32 (.inl rfl)
    head := t.head }

end Arena.Tiled

namespace Arena

variable (h : Arena)

/-- The headers after a chunk `n` was cut off from `a`, which keeps `s` bytes; `b` follows. -/
def cleave (a n b s : Nat) : Arena :=
  ((((((h.setPrev n a).setNext n b).setSize n (b - n - 32)).setFree n 0).setPrev b n).setNext a n).setSize a s

theorem cleave_mem (a n b s w : Nat) : (h.cleave a n b s).mem w =
    if w = a + 16 then s else if w = a + 8 then n else if w = b then n else if w = n + 24 then 0
    else if w = n + 16 then b - n - 32 else if w = n + 8 then b else if w = n then a else h.mem w := by
  simp [cleave, setSize, setNext, setPrev, setFree]

theorem cleave_of_ne {h : Arena} {a n b s w : Nat} (hw : w ≠ a + 16 ∧ w ≠ a + 8 ∧ w ≠ b ∧ (w < n ∨ n + 24 < w)) :
    (h.cleave a n b s).mem w = h.mem w := by
  rw [cleave_mem]
  split_ifs <;> omega

theorem cleave_heads {a n b : Nat} (s : Nat) (hn : a + 32 ≤ n) (hb : n + 32 ≤ b) :
    (h.cleave a n b s).next a = n ∧ (h.cleave a n b s).prev n = a ∧ (h.cleave a n b s).size a = s ∧
      (h.cleave a n b s).next n = b ∧ (h.cleave a n b s).prev b = n ∧ (h.cleave a n b s).size n = b - n - 32 ∧
      (h.cleave a n b s).isFree n = 0 := by
  refine ⟨?_, ?_, ?_, ?_, ?_, ?_, ?_⟩ <;> refine (h.cleave_mem ..).trans ?_ <;> split_ifs <;> omega

theorem cleave_freeList (a n b s : Nat) : (h.cleave a n b s).freeList = h.freeList := rfl

end Arena

namespace Arena.Tiled

variable {h : Arena} {v : Tiling} {a b n s : Nat}

theorem cleave (t : h.Tiled v) (hab : Next v.chunks a b) (ha : v.Inner a) (hn : n = a + 32 + s) (hs : 16 ≤ s)
    (hs16 : 16 ∣ s) (hroom : s + 48 ≤ h.size a) : (h.cleave a n b s).Tiled { v with chunks := insert n v.chunks } := by
  obtain ⟨-, -, hsa⟩ := t.step a b hab
  have haa := t.aligned a hab.left
  obtain ⟨hnexta, hprevn, hsizea, hnextn, hprevb, hsizen, hfree⟩ := h.cleave_heads s (a := a) (n := n) (b := b)
    (by omega)
    (by omega)
  have hfar : ∀ x ∈ v.chunks, x + 48 ≤ n ∨ n + 48 ≤ x := by
    intro x hx
    have := hab.between hx
    omega
  have hnew : n ∉ v.chunks := fun hmem => by
    have := hfar n hmem
    omega
  have hold : ∀ x ∈ v.chunks, ∀ k, 0 < k ∧ k < 32 ∧ (x = a → k = 24) →
      (h.cleave a n b s).mem (x + k) = h.mem (x + k) := by
    intro x hx k hk
    have hxa := t.heads_apart hx hab.left
    have hxb := t.heads_apart hx hab.right
    have := hfar x hx
    exact cleave_of_ne (by omega)
  have hlink : ∀ x ∈ v.free, ∀ k, k = 32 ∨ k = 40 → (h.cleave a n b s).mem (x + k) = h.mem (x + k) := by
    intro x hx k hk
    have hax := t.apart hab.left (t.inner x hx)
    have hbx := t.apart hab.right (t.inner x hx)
    have := hfar x (t.inner x hx).1
    exact cleave_of_ne (by omega)
  have hlow := t.low a hab.left
  have hlast := ha.2.2
  exact {
    pos := t.pos
    lt := t.lt
    bound := t.bound
    start_mem := Finset.mem_insert_of_mem t.start_mem
    last_mem := Finset.mem_insert_of_mem t.last_mem
    low := (Finset.forall_mem_insert ..).mpr ⟨hlow.trans (by omega), t.low⟩
    high := (Finset.forall_mem_insert ..).mpr ⟨le_trans (by omega) (t.high b hab.right), t.high⟩
    aligned := (Finset.forall_mem_insert ..).mpr ⟨by omega, t.aligned⟩
    front := (cleave_of_ne (by simp only; omega)).trans t.front
    rear_next := (hold _ t.last_mem 8 (by omega)).trans t.rear_next
    rear_size := (hold _ t.last_mem 16 (by omega)).trans t.rear_size
    step := by
      intro x y hxy
      rcases hab.of_insert (by omega) (by omega) hxy with ⟨rfl, rfl⟩ | ⟨rfl, rfl⟩ | ⟨hxy', hxa, hyb⟩
      · exact ⟨hnexta, hprevn, hsizea.symm ▸ hn.symm⟩
      · exact ⟨hnextn, hprevb, by rw [hsizen]; omega⟩
      · have hya := t.heads_apart hxy'.right hab.left
        have := hfar y hxy'.right
        obtain ⟨h1, h2, h3⟩ := t.step x y hxy'
        have h2' : (h.cleave a n b s).prev y = h.prev y := cleave_of_ne (by omega)
        exact ⟨(hold x hxy'.left 8 (by omega)).trans h1, h2'.trans h2,
          (congrArg (x + 32 + ·) (hold x hxy'.left 16 (by omega))).trans h3⟩
    room := by
      rintro c ⟨hc, hs', hl⟩
      rcases Finset.mem_insert.mp hc with rfl | hc
      · rw [hsizen]
        omega
      · by_cases hca : c = a
        · rw [hca, hsizea]
          exact hs
        · exact (t.room c ⟨hc, hs', hl⟩).trans_eq (hold c hc 16 (by omega)).symm
    flag := (Finset.forall_mem_insert ..).mpr ⟨hfree.trans (if_neg fun hf => hnew (t.inner _ hf).1).symm,
      fun c hc => (hold c hc 24 (by omega)).trans (t.flag c hc)⟩
    inner := by
      intro c hc
      obtain ⟨hc', hs, hl⟩ := t.inner c hc
      exact ⟨Finset.mem_insert_of_mem hc', hs, hl⟩
    nodup := t.nodup
    list := t.list.congr (fun x hx => hlink x hx 40 (.inr rfl)) fun x hx => hlink x hx 32 (.inl rfl)
    head := t.head }

end Arena.Tiled

namespace Arena

variable (h : Arena)

/-- The headers after the rear guard moved from `z` to `n`, and `z` became a chunk. -/
def extend (z n : Nat) : Arena :=
  (((((h.setNext z n).setSize z (n - z - 32)).setPrev n z).setNext n 0).setSize n 0).setFree n 0

theorem extend_mem (z n w : Nat) : (h.extend z n).mem w =
    if w = n + 24 then 0 else if w = n + 16 then 0 else if w = n + 8 then 0 else if w = n then z
    else if w = z + 16 then n - z - 32 else if w = z + 8 then n else h.mem w := by
  simp [extend, setSize, setNext, setPrev, setFree]

theorem extend_of_ne {h : Arena} {z n w : Nat} (hw : w ≠ z + 8 ∧ w ≠ z + 16 ∧ (w < n ∨ n + 24 < w)) :
    (h.extend z n).mem w = h.mem w := by
  rw [extend_mem]
  split_ifs <;> omega

theorem extend_heads {z n : Nat} (hn : z + 32 ≤ n) : (h.extend z n).next z = n ∧ (h.extend z n).prev n = z ∧
    (h.extend z n).size z = n - z - 32 ∧ (h.extend z n).next n = 0 ∧ (h.extend z n).size n = 0 ∧
      (h.extend z n).isFree n = 0 := by
  refine ⟨?_, ?_, ?_, ?_, ?_, ?_⟩ <;> refine (h.extend_mem ..).trans ?_ <;> split_ifs <;> omega

end Arena

namespace Arena.Tiled

variable {h : Arena} {v : Tiling} {n : Nat}

theorem extend (t : h.Tiled v) (hn : v.last + 48 ≤ n) (hn16 : 16 ∣ n) (hbound : n + 32 < 2 ^ 64) :
    (h.extend v.last n).Tiled { v with last := n, chunks := insert n v.chunks } := by
  have hlow : ∀ x ∈ v.chunks, x ≤ v.last := t.high
  have hlt := t.lt
  obtain ⟨hnextl, hprevn, hsizel, hnextn, hsizen, hfree⟩ := h.extend_heads (z := v.last) (n := n) (by omega)
  have hnew : n ∉ v.chunks := fun hmem => by
    have := hlow n hmem
    omega
  have hold : ∀ x ∈ v.chunks, ∀ k, k < 32 ∧ (x = v.last → k ≠ 8 ∧ k ≠ 16) →
      (h.extend v.last n).mem (x + k) = h.mem (x + k) := by
    intro x hx k hk
    have hxl := t.heads_apart hx t.last_mem
    have := hlow x hx
    exact extend_of_ne (by omega)
  have hlink : ∀ x ∈ v.free, ∀ k, k = 32 ∨ k = 40 → (h.extend v.last n).mem (x + k) = h.mem (x + k) := by
    intro x hx k hk
    have hlx := t.apart t.last_mem (t.inner x hx)
    have := hlow x (t.inner x hx).1
    exact extend_of_ne (by omega)
  exact {
    pos := t.pos
    lt := hlt.trans (by simp only; omega)
    bound := hbound
    start_mem := Finset.mem_insert_of_mem t.start_mem
    last_mem := Finset.mem_insert_self _ _
    low := (Finset.forall_mem_insert ..).mpr ⟨by simp only; omega, t.low⟩
    high := (Finset.forall_mem_insert ..).mpr ⟨le_rfl, fun c hc => (hlow c hc).trans (by simp only; omega)⟩
    aligned := (Finset.forall_mem_insert ..).mpr ⟨hn16, t.aligned⟩
    front := (extend_of_ne (by simp only; omega)).trans t.front
    rear_next := hnextn
    rear_size := hsizen
    step := by
      intro x y hxy
      rcases Next.of_insert_top t.last_mem hlow (by omega) hxy with ⟨rfl, rfl⟩ | hxy'
      · exact ⟨hnextl, hprevn, by rw [hsizel]; omega⟩
      · have hne := hxy'.lt.trans_le (hlow y hxy'.right)
        obtain ⟨h1, h2, h3⟩ := t.step x y hxy'
        exact ⟨(hold x hxy'.left 8 (by omega)).trans h1, (hold y hxy'.right 0 (by omega)).trans h2,
          (congrArg (x + 32 + ·) (hold x hxy'.left 16 (by omega))).trans h3⟩
    room := by
      rintro c ⟨hc, hs, hl⟩
      have hc := (Finset.mem_insert.mp hc).resolve_left hl
      by_cases hcl : c = v.last
      · rw [hcl, hsizel]
        omega
      · exact (t.room c ⟨hc, hs, hcl⟩).trans_eq (hold c hc 16 (by omega)).symm
    flag := (Finset.forall_mem_insert ..).mpr ⟨hfree.trans (if_neg fun hf => hnew (t.inner _ hf).1).symm,
      fun c hc => (hold c hc 24 (by omega)).trans (t.flag c hc)⟩
    inner := by
      intro c hc
      obtain ⟨hc', hs, hl⟩ := t.inner c hc
      exact ⟨Finset.mem_insert_of_mem hc', hs, ne_of_mem_of_not_mem hc' hnew⟩
    nodup := t.nodup
    list := t.list.congr (fun x hx => hlink x hx 40 (.inr rfl)) fun x hx => hlink x hx 32 (.inl rfl)
    head := t.head }

end Arena.Tiled
end Novino.Mem
