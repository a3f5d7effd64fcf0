import Novino.Theorems.Break
import Novino.Theorems.Resize

/-! The allocator of the C library over whole runs of `malloc`, `calloc`, `free` and `realloc`, with the break of the
    process below it. -/

namespace Novino.Libc

open Novino.Mem Steps

namespace Heap

variable {h h' : Heap} {v v' : Tiling} {a c m n : Nat} {g : Arena}

/-! ### The break below the heap -/

def moved (h : Heap) (fin : Nat) (proc : Process) : Heap := { h with fin := fin, proc := proc }

@[simp] theorem moved_fin (h : Heap) (fin : Nat) (proc : Process) : (h.moved fin proc).fin = fin := rfl

@[simp] theorem withArena_toArena (h : Heap) (a : Arena) : (h.withArena a).toArena = a := rfl

@[simp] theorem withArena_fin (h : Heap) (a : Arena) : (h.withArena a).fin = h.fin := rfl

/-- The memory of the heap lies below the break. A growth that failed may have left the break further up. -/
structure Held (h : Heap) : Prop where
  area : h.proc.Area
  page : PAGE_SIZE ∣ h.fin
  pos : 0 < h.proc.start
  low : h.proc.start ≤ h.fin
  high : h.fin ≤ h.proc.fin
  cap : h.proc.start ≤ h.proc.max
  max : h.proc.max < 2 ^ 63

theorem Held.withArena (hh : h.Held) (a : Arena) : (h.withArena a).Held :=
  ⟨hh.area, hh.page, hh.pos, hh.low, hh.high, hh.cap, hh.max⟩

theorem Held.fin_le (hh : h.Held) : h.fin ≤ h.proc.max := by
  have htop := hh.area.top
  have hcap := hh.cap
  have hhigh := hh.high
  omega

theorem Held.moved (hh : h.Held) {fin : Nat} {proc : Process} (hr : h.proc.Reached fin proc) (hpage : PAGE_SIZE ∣ fin)
    (hlow : h.fin ≤ fin) : (h.moved fin proc).Held where
  area := hr.area
  page := hpage
  pos := hr.start ▸ hh.pos
  low := hr.start ▸ hh.low.trans hlow
  high := hr.fin
  cap := by
    rw [show (h.moved fin proc).proc = proc from rfl, hr.start, hr.max]
    exact hh.cap
  max := hr.max ▸ hh.max

def top (h : Heap) (m : Nat) : Nat := h.fin + alignSize m HEAP_SBRK_ALIGN

def Grows (h : Heap) (m : Nat) : Prop := m < 2 ^ 63 ∧ h.proc.Reaches (h.top m)

instance : Decidable (h.Grows m) := inferInstanceAs (Decidable (_ ∧ _))

theorem page_sbrk (m : Nat) : PAGE_SIZE ∣ alignSize m HEAP_SBRK_ALIGN := Nat.dvd_mul_left ..

theorem sbrk_le (hm : m < 2 ^ 63) : m ≤ alignSize m HEAP_SBRK_ALIGN ∧ alignSize m HEAP_SBRK_ALIGN ≤ 2 ^ 63 := by
  unfold alignSize HEAP_SBRK_ALIGN
  omega

theorem heapSbrk_cases (hh : h.Held) (m : Nat) :
    (h.Grows m ∧ ∃ proc, h.heapSbrk m = (h.moved (h.top m) proc, true) ∧ (h.moved (h.top m) proc).Held) ∨
      ¬h.Grows m ∧ ∃ proc, h.heapSbrk m = (h.moved h.fin proc, false) ∧ (h.moved h.fin proc).Held := by
  by_cases hm : 2 ^ 63 ≤ m
  · refine .inr ⟨fun hg => absurd hg.1 (by omega), h.proc, ?_, hh⟩
    unfold heapSbrk
    rw [if_pos hm]
    rfl
  · have hle := sbrk_le (not_le.mp hm)
    have hfin := hh.fin_le
    have hmax := hh.max
    have hmod : (h.fin + alignSize m HEAP_SBRK_ALIGN) % 2 ^ 64 = h.top m := Nat.mod_eq_of_lt (by omega)
    have hlow : h.proc.start ≤ h.top m := hh.low.trans (Nat.le_add_right ..)
    have hpage : PAGE_SIZE ∣ h.top m := Nat.dvd_add hh.page (page_sbrk m)
    have hpos := hh.pos
    rcases hh.area.request hpage (by omega) hlow with ⟨hreach, hok, hr⟩ | ⟨hreach, ⟨e, herr⟩, hr⟩
    · refine .inl ⟨⟨not_le.mp hm, hreach⟩, _, ?_, hh.moved hr hpage (Nat.le_add_right ..)⟩
      unfold heapSbrk
      simp only [if_neg hm, hmod, hok]
      rfl
    · have hr' : h.proc.Reached h.fin (h.proc.sysBrk (h.top m)).1 :=
        ⟨hr.area, hr.start, hr.max, hh.high.trans hr.fin⟩
      refine .inr ⟨fun hg => hreach hg.2, _, ?_, hh.moved hr' hh.page le_rfl⟩
      unfold heapSbrk
      simp only [if_neg hm, hmod, herr]
      rfl

/-! ### Growing the heap -/

structure Formed (h : Heap) (v : Tiling) : Prop where
  tiled : h.toArena.Tiled v
  front : v.start = h.start
  rear : v.last + 32 = h.fin

theorem Formed.withArena (hf : h.Formed v) (t : g.Tiled v') (hstart : v'.start = v.start)
    (hlast : v'.last = v.last) : (h.withArena g).Formed v' :=
  ⟨t, hstart.trans hf.front, hlast.symm ▸ hf.rear⟩

theorem Formed.moved (hf : h.Formed v) (proc : Process) : (h.moved h.fin proc).Formed v := ⟨hf.tiled, hf.front, hf.rear⟩

def extra (a : Nat) : Nat := (a + HEAP_HEADER_SIZE) % 2 ^ 64

theorem heapExpand_stuck (hh : h.Held) (hg : ¬h.Grows (extra a)) :
    ∃ proc, h.heapExpand a = (h.moved h.fin proc, 0) ∧ (h.moved h.fin proc).Held := by
  obtain ⟨-, proc, heq, hheld⟩ := (heapSbrk_cases hh (extra a)).resolve_left fun hok => hg hok.1
  refine ⟨proc, ?_, hheld⟩
  unfold heapExpand
  simp only [show (a + HEAP_HEADER_SIZE) % 2 ^ 64 = extra a from rfl, heq, Bool.not_false, if_true]

theorem heapExpand_grows (hf : h.Formed v) (hh : h.Held) (hg : h.Grows (extra a)) :
    ∃ proc, h.heapExpand a = ((h.moved (h.top (extra a)) proc).withArena
        (h.toArena.moveGuard glueNext v.last (h.top (extra a) - 32)).1,
        (h.toArena.moveGuard glueNext v.last (h.top (extra a) - 32)).2) ∧ (h.moved (h.top (extra a)) proc).Held := by
  obtain ⟨-, proc, heq, hheld⟩ := (heapSbrk_cases hh (extra a)).resolve_right fun hno => hno.1 hg
  have hold : h.fin - HEAP_HEADER_SIZE = v.last := by
    have hrear := hf.rear
    unfold HEAP_HEADER_SIZE
    omega
  refine ⟨proc, ?_, hheld⟩
  unfold heapExpand
  simp only [show (a + HEAP_HEADER_SIZE) % 2 ^ 64 = extra a from rfl, heq, hold, Bool.not_true, Bool.false_eq_true,
    if_false]
  rfl

theorem heapExpand_moves (hf : h.Formed v) (hh : h.Held) (hg : h.Grows (extra a))
    (hz : alignSize (extra a) HEAP_SBRK_ALIGN ≠ 0) :
    ∃ v', (h.heapExpand a).1.Formed v' ∧ (h.heapExpand a).1.Held ∧
      h.toArena.Reshaped v (h.heapExpand a).1.toArena v' ∧ (h.heapExpand a).2 ∈ v'.free ∧
      extra a ≤ (h.heapExpand a).1.toArena.size (h.heapExpand a).2 + 32 ∧ (v.Coalesced → v'.Coalesced) := by
  obtain ⟨proc, heq, hheld⟩ := heapExpand_grows hf hh hg
  have hrear := hf.rear
  have h16 := hf.tiled.aligned _ hf.tiled.last_mem
  have hpage := page_sbrk (extra a)
  have hge := Nat.le_of_dvd (Nat.pos_of_ne_zero hz) hpage
  have hsbrk := (sbrk_le hg.1).1
  have hfin := hheld.fin_le
  have hmax := hheld.max
  have htop : h.top (extra a) = v.last + 32 + alignSize (extra a) HEAP_SBRK_ALIGN := by rw [hrear, top]
  rw [moved_fin] at hfin
  generalize alignSize (extra a) HEAP_SBRK_ALIGN = more at *
  obtain ⟨v', r, hlast, hmem, hsize, hco⟩ := hf.tiled.moveGuard (n := h.top (extra a) - 32)
    (by unfold PAGE_SIZE at *; omega) (by unfold PAGE_SIZE at *; omega) (by omega) fun g w c t hc => t.libc_glueNext hc
  rw [heq]
  refine ⟨v', ⟨r.tiled, r.start.trans hf.front, ?_⟩, hheld.withArena _, r, hmem, ?_, hco⟩
  · rw [withArena_fin, moved_fin, hlast]
    omega
  · refine le_trans ?_ (Nat.add_le_add_right hsize 32)
    omega

theorem heapExpand_ne (hf : h.Formed v) (hh : h.Held) : (h.heapExpand a).2 ≠ 0 ↔ h.Grows (extra a) := by
  by_cases hg : h.Grows (extra a)
  · refine iff_of_true ?_ hg
    by_cases hz : alignSize (extra a) HEAP_SBRK_ALIGN = 0
    · obtain ⟨proc, heq, -⟩ := heapExpand_grows hf hh hg
      have htop : h.top (extra a) - 32 = v.last := by
        have hrear := hf.rear
        unfold top
        omega
      rw [heq, htop, hf.tiled.moveGuard_still]
      exact hf.tiled.ne_zero hf.tiled.last_mem
    · obtain ⟨v', hf', -, -, hmem, -⟩ := heapExpand_moves hf hh hg hz
      exact hf'.tiled.ne_zero (hf'.tiled.inner _ hmem).1
  · refine iff_of_false ?_ hg
    obtain ⟨proc, heq, -⟩ := heapExpand_stuck hh hg
    rw [heq]
    exact not_not.mpr rfl

/-! ### Giving out -/

/-- Of the heap `h`, `h'` has given out the new chunk `c` with at least `a` bytes. -/
structure Gives (h : Heap) (v : Tiling) (a : Nat) (h' : Heap) (v' : Tiling) (c : Nat) : Prop where
  formed : h'.Formed v'
  held : h'.Held
  used : ∀ x, v'.Used x ↔ v.Used x ∨ x = c
  fresh : ¬v.Used c
  size : a ≤ h'.toArena.size c
  same : ∀ x, v.Used x → h.toArena.Same h'.toArena v' x
  coalesced : v.Coalesced → v'.Coalesced

theorem Gives.write (hg : h.Gives v a h' v' c) (hlist : g.freeList = h'.freeList)
    (hmem : ∀ w, w < c + 32 ∨ c + 32 + h'.toArena.size c ≤ w → g.mem w = h'.mem w) :
    h.Gives v a (h'.withArena g) v' c := by
  have hu := (hg.used c).mpr (.inr rfl)
  have r := hg.formed.tiled.data hu hlist hmem
  refine ⟨⟨r.tiled, hg.formed.front, hg.formed.rear⟩, hg.held.withArena g, hg.used, hg.fresh, ?_, fun x hx => ?_,
    hg.coalesced⟩
  · exact hg.size.trans_eq (hmem (c + 16) (.inl (by omega))).symm
  · exact (hg.same x hx).trans (r.same x ((hg.used x).mpr (.inl hx)) fun heq => hg.fresh (heq ▸ hx))

/-- `malloc` gets a chunk for `n` bytes: there is one, or the heap can grow. -/
def Obtains (h : Heap) (n : Nat) : Prop :=
  n ≠ 0 ∧ (h.findLoop (alignSize n HEAP_DATA_ALIGN) (2 ^ 64) h.freeList ≠ 0 ∨
    h.Grows (extra (alignSize n HEAP_DATA_ALIGN)))

instance : Decidable (h.Obtains n) := inferInstanceAs (Decidable (_ ∧ (_ ∨ _)))

theorem alignSize_fits (h0 : n ≠ 0) (hn : n + 47 < 2 ^ 64) : n ≤ alignSize n HEAP_DATA_ALIGN ∧
    16 ≤ alignSize n HEAP_DATA_ALIGN ∧ 16 ∣ alignSize n HEAP_DATA_ALIGN ∧
      alignSize n HEAP_DATA_ALIGN + 32 < 2 ^ 64 := by
  unfold alignSize HEAP_DATA_ALIGN
  omega

theorem gives_take (hf : h.Formed v) (hh : h.Held) (hc : c ∈ v.free) (hs : 16 ≤ a) (hs16 : 16 ∣ a)
    (hac : a ≤ h.toArena.size c) :
    ∃ v', h.Gives v a (h.withArena ((splitChunk h.toArena c a).removeFreeChunk c)) v' c := by
  obtain ⟨v', t', hstart, hlast, hused, hsame, hsize, hco⟩ := hf.tiled.take hc hs hs16 hac rfl
  refine ⟨v', hf.withArena t' hstart hlast, hh.withArena _, hused, fun hu => hu.2 hc, ?_, ?_, hco⟩ <;>
    rw [withArena_toArena]
  · exact hsize
  · exact hsame

theorem findFreeChunk_found (hfind : h.findLoop a (2 ^ 64) h.freeList ≠ 0) :
    h.findFreeChunk a = (h, h.findLoop a (2 ^ 64) h.freeList) := if_pos hfind

theorem findFreeChunk_none (hfind : h.findLoop a (2 ^ 64) h.freeList = 0) : h.findFreeChunk a = h.heapExpand a :=
  if_neg (not_not.mpr hfind)

theorem malloc_eq (h0 : n ≠ 0) {e : Heap × Nat} (he : h.findFreeChunk (alignSize n HEAP_DATA_ALIGN) = e) :
    h.malloc n = if e.2 = 0 then (e.1, 0) else
      (e.1.withArena ((splitChunk e.1.toArena e.2 (alignSize n HEAP_DATA_ALIGN)).removeFreeChunk e.2), e.2 + 32) := by
  unfold malloc
  simp only [if_neg h0, he, HEAP_HEADER_SIZE]

theorem malloc_ne (hf : h.Formed v) (hh : h.Held) : (h.malloc n).2 ≠ 0 ↔ h.Obtains n := by
  by_cases h0 : n = 0
  · refine iff_of_false ?_ fun hob => hob.1 h0
    rw [show h.malloc n = (h, 0) from if_pos h0]
    exact not_not.mpr rfl
  have hret : (h.malloc n).2 ≠ 0 ↔ (h.findFreeChunk (alignSize n HEAP_DATA_ALIGN)).2 ≠ 0 := by
    rw [malloc_eq h0 rfl]
    split
    · simp [*]
    · simp [*]
  rw [hret, Obtains]
  by_cases hfind : h.findLoop (alignSize n HEAP_DATA_ALIGN) (2 ^ 64) h.freeList = 0
  · rw [findFreeChunk_none hfind, heapExpand_ne hf hh]
    exact ⟨fun hg => ⟨h0, .inr hg⟩, fun hob => hob.2.resolve_left (not_not.mpr hfind)⟩
  · rw [findFreeChunk_found hfind]
    exact iff_of_true hfind ⟨h0, .inl hfind⟩

theorem malloc_null (hh : h.Held) (hno : ¬h.Obtains n) :
    ∃ proc, h.malloc n = (h.moved h.fin proc, 0) ∧ (h.moved h.fin proc).Held := by
  by_cases h0 : n = 0
  · exact ⟨h.proc, if_pos h0, hh⟩
  obtain ⟨hfind, hgrow⟩ := not_or.mp fun hor => hno ⟨h0, hor⟩
  obtain ⟨proc, heq, hheld⟩ := heapExpand_stuck hh hgrow
  refine ⟨proc, ?_, hheld⟩
  rw [malloc_eq h0 ((findFreeChunk_none (not_not.mp hfind)).trans heq), if_pos rfl]

theorem malloc_gives (hf : h.Formed v) (hh : h.Held) (hob : h.Obtains n) (hn : n + 47 < 2 ^ 64) :
    ∃ h' v' c, h.malloc n = (h', c + 32) ∧ h.Gives v (alignSize n HEAP_DATA_ALIGN) h' v' c := by
  obtain ⟨h0, hor⟩ := hob
  obtain ⟨-, hs, hs16, hlt⟩ := alignSize_fits h0 hn
  have hfound := hf.tiled.find (alignSize n HEAP_DATA_ALIGN)
  by_cases hfind : h.findLoop (alignSize n HEAP_DATA_ALIGN) (2 ^ 64) h.freeList = 0
  · have hg := hor.resolve_left (not_not.mpr hfind)
    have hextra : extra (alignSize n HEAP_DATA_ALIGN) = alignSize n HEAP_DATA_ALIGN + 32 := Nat.mod_eq_of_lt hlt
    have hsbrk := (sbrk_le hg.1).1
    obtain ⟨v1, hf1, hh1, r, hmem, hsize, hco1⟩ := heapExpand_moves hf hh hg (by omega)
    have hk := malloc_eq h0 (findFreeChunk_none hfind)
    generalize h.heapExpand (alignSize n HEAP_DATA_ALIGN) = e at hf1 hh1 r hmem hsize hk
    rw [if_neg (hf1.tiled.ne_zero (hf1.tiled.inner e.2 hmem).1)] at hk
    obtain ⟨v', hgives⟩ := gives_take hf1 hh1 hmem hs hs16 (by omega)
    refine ⟨_, v', e.2, hk, hgives.formed, hgives.held, fun x => ?_, ?_, hgives.size, fun x hx => ?_,
      fun hco => hgives.coalesced (hco1 hco)⟩
    · rw [hgives.used, r.used]
    · exact (r.used _).not.mp hgives.fresh
    · exact (r.same x hx).trans (hgives.same x ((r.used x).mpr hx))
  · obtain ⟨hmem, hsz⟩ := hfound.resolve_left fun hz => hfind hz.1
    have hk := malloc_eq h0 (findFreeChunk_found hfind)
    rw [if_neg hfind] at hk
    obtain ⟨v', hgives⟩ := gives_take hf hh hmem hs hs16 hsz
    exact ⟨_, v', _, hk, hgives⟩

theorem free_null (hpos : 0 < h.start) : h.free 0 = h := if_pos hpos

theorem free_spec (hf : h.Formed v) (hh : h.Held) (hc : v.Used c) : ∃ v', (h.free (c + 32)).Formed v' ∧
    (h.free (c + 32)).Held ∧ (∀ x, v'.Used x ↔ v.Used x ∧ x ≠ c) ∧
      (∀ x, v.Used x → x ≠ c → h.toArena.Same (h.free (c + 32)).toArena v' x) ∧ (v.Coalesced → v'.Coalesced) := by
  have hlow := hf.tiled.low c hc.1.1
  have hhigh := hf.tiled.high c hc.1.1
  have hfront := hf.front
  have hrear := hf.rear
  have t1 := hf.tiled.push hc
  obtain ⟨v2, r2, -, hmem2, -⟩ := t1.glueBack List.mem_cons_self
  have heq : h.free (c + 32) = h.withArena (((h.insertFreeChunk c).glueBack c).1.glueNext
      ((h.insertFreeChunk c).glueBack c).2) := by
    unfold free
    simp only [if_neg (show ¬c + 32 < h.start by omega), if_neg (show ¬h.fin < c + 32 by omega),
      hf.tiled.sub64_header hc, r2.tiled.libc_glueNext hmem2]
  obtain ⟨v', t', hstart, hlast, hused, hsame, hco⟩ := hf.tiled.release hc rfl
  rw [heq]
  exact ⟨v', hf.withArena t' hstart hlast, hh.withArena _, hused, hsame, hco⟩

/-! ### Changing the size of a block -/

/-- The block of the chunk `c` is now that of `d`: it keeps the first `k` bytes of its data, and no other chunk that is
given out has changed. -/
structure Leaves (h : Heap) (v : Tiling) (c : Nat) (h' : Heap) (v' : Tiling) (d k : Nat) : Prop where
  formed : h'.Formed v'
  held : h'.Held
  block : v'.Used d
  same : ∀ x, v.Used x → x ≠ c → h.toArena.Same h'.toArena v' x
  data : ∀ i < k, h'.mem (d + 32 + i) = h.mem (c + 32 + i)

theorem Leaves.of_resized {k : Nat} (hf : h'.Formed v') (hh : h'.Held) (hc : v.Used c)
    (r : h.toArena.Resized v h'.toArena v' c k) : h.Leaves v c h' v' c k :=
  ⟨hf, hh, (r.used c).mpr hc, r.same, fun i hi => r.holds _ (by omega) (by omega)⟩

/-- Cutting a chunk to `a` bytes leaves no two free neighbours. -/
def Tidy (h : Heap) (c a : Nat) : Prop := ¬(a + 48 ≤ h.toArena.size c ∧ h.isFree (h.next c) ≠ 0)

instance : Decidable (h.Tidy c a) := inferInstanceAs (Decidable (¬(_ ∧ _)))

/-- What `realloc` of the chunk `c` to `a` bytes may end in: a block of that size, or the old block. -/
def Resizes (h : Heap) (v : Tiling) (c a : Nat) (r : Heap × Nat) : Prop :=
  ∃ v' d k, h.Leaves v c r.1 v' d k ∧ (v.Coalesced → (v'.Coalesced ↔ h.Tidy c a)) ∧
    (r.2 = d + 32 ∧ k = min (h.toArena.size c) a ∧ a ≤ r.1.toArena.size d ∨
      r.2 = 0 ∧ d = c ∧ k = h.toArena.size c ∧ h.toArena.size c ≤ r.1.toArena.size c)

theorem resizes_shrink (hf : h.Formed v) (hh : h.Held) (hc : v.Used c) (hs : 16 ≤ a) (hs16 : 16 ∣ a)
    (hac : a ≤ h.toArena.size c) : h.Resizes v c a (h.withArena (splitChunk h.toArena c a), c + 32) := by
  obtain ⟨v', r, hlast, hsize, hco⟩ := hf.tiled.shrink hc hs hs16 hac rfl
  exact ⟨v', c, a, .of_resized (hf.withArena r.tiled r.start hlast) (hh.withArena _) hc r, hco,
    .inl ⟨rfl, (min_eq_right hac).symm, hsize⟩⟩

section
variable {g : Heap} {w : Tiling} (hc : v.Used c) (hs : 16 ≤ a) (hs16 : 16 ∣ a) (hac : h.toArena.size c < a)
  (hg : g.Formed w) (hgh : g.Held) (r : h.toArena.Resized v g.toArena w c (h.toArena.size c))

include hac in
theorem tidy_of_lt : h.Tidy c a := fun hcut => absurd hcut.1 (by omega)

include hc hs hs16 hac hg hgh r in
theorem resizes_cut (hsize : a ≤ g.toArena.size c) (hco : v.Coalesced → w.Coalesced ∧ g.isFree (g.next c) = 0) :
    h.Resizes v c a (g.withArena (splitChunk g.toArena c a), c + 32) := by
  have hcw := (r.used c).mpr hc
  obtain ⟨v', r', hlast, hsize', hco'⟩ := hg.tiled.shrink hcw hs hs16 hsize rfl
  refine ⟨v', c, h.toArena.size c, .of_resized (hg.withArena r'.tiled r'.start hlast)
    (hgh.withArena _) hc (r.trans r' le_rfl hac.le),
    fun hv => ?_, .inl ⟨rfl, (min_eq_left hac.le).symm, hsize'⟩⟩
  obtain ⟨hw, hnext⟩ := hco hv
  exact iff_of_true ((hco' hw).mpr fun hcut => hcut.2 hnext) (tidy_of_lt hac)

include hc hac hg hgh r in
theorem resizes_keep (hsize : h.toArena.size c ≤ g.toArena.size c) (hco : v.Coalesced → w.Coalesced) :
    h.Resizes v c a (g, 0) :=
  ⟨w, c, _, .of_resized hg hgh hc r, fun hv => iff_of_true (hco hv) (tidy_of_lt hac), .inr ⟨rfl, rfl, rfl, hsize⟩⟩

include hc hac r in
theorem resizes_move {g' : Heap} {w' : Tiling} {d : Nat} (hgives : g.Gives w a g' w' d)
    (hsize : h.toArena.size c ≤ g.toArena.size c) (hco : v.Coalesced → w.Coalesced) :
    h.Resizes v c a
      ((g'.withArena (copy g'.toArena (d + 32) (c + 32) (h.toArena.size c))).free (c + 32), d + 32) := by
  have hcw := (r.used c).mpr hc
  have hdc : d ≠ c := fun heq => hgives.fresh (heq ▸ hcw)
  have hd : w'.Used d := (hgives.used d).mpr (.inr rfl)
  have hroom := hgives.size
  obtain ⟨g3, hg3⟩ : ∃ g3, g3 = copy g'.toArena (d + 32) (c + 32) (h.toArena.size c) := ⟨_, rfl⟩
  have r3 : g'.toArena.Resized w' g3 w' d 0 := by
    refine hgives.formed.tiled.data hd (by rw [hg3]; rfl) fun x hx => ?_
    rw [hg3]
    exact if_pos (by omega)
  rw [← hg3]
  have hf3 := hgives.formed.withArena r3.tiled r3.start rfl
  have hcw' := (hgives.used c).mpr (.inl hcw)
  obtain ⟨v4, hf4, hh4, hused4, hsame4, hco4⟩ := free_spec hf3 (hgives.held.withArena g3) hcw'
  generalize (g'.withArena g3).free (c + 32) = h4 at hf4 hh4 hsame4
  have hd4 := hsame4 d hd hdc
  rw [withArena_toArena] at hsame4 hd4
  have hsize3 : g3.size d = g'.toArena.size d := by
    rw [hg3]
    exact if_pos (.inl (by omega))
  refine ⟨v4, d, h.toArena.size c, ⟨hf4, hh4, hd4.1, fun x hx hxc => ?_, fun i hi => ?_⟩, fun hv => ?_,
    .inl ⟨rfl, (min_eq_left hac.le).symm, ?_⟩⟩
  · have hxw := (r.used x).mpr hx
    have hxd : x ≠ d := fun heq => hgives.fresh (heq ▸ hxw)
    have hxw' := (hgives.used x).mpr (.inl hxw)
    exact (r.same x hx hxc).trans ((hgives.same x hxw).trans ((r3.same x hxw' hxd).trans (hsame4 x hxw' hxc)))
  · have hcopy : g3.mem (d + 32 + i) = g'.mem (c + 32 + i) := by
      rw [hg3]
      refine (if_neg (by omega)).trans ?_
      rw [Nat.add_sub_cancel_left]
    rw [hd4.2.2 _ (by omega) (by omega), hcopy, (hgives.same c hcw).2.2 _ (by omega) (by omega)]
    exact r.holds _ (by omega) (by omega)
  · exact iff_of_true (hco4 (hgives.coalesced (hco hv))) (tidy_of_lt hac)
  · rw [hd4.2.1, hsize3]
    exact hroom

include hc hs hs16 hac hg hgh r in
theorem resizes_grow (hlast : Next w.chunks c w.last) (ha : a + 32 < 2 ^ 64) (hgrow : g.Grows (extra a))
    (hsize : h.toArena.size c ≤ g.toArena.size c) (hco : v.Coalesced → w.Coalesced) :
    h.Resizes v c a ((g.heapExpand a).1.withArena (splitChunk (glueNext (g.heapExpand a).1.toArena c) c a),
      c + 32) := by
  obtain ⟨proc, heq, hheld⟩ := heapExpand_grows hg hgh hgrow
  have hcw := (r.used c).mpr hc
  have hrear := hg.rear
  have h16 := hg.tiled.aligned _ hg.tiled.last_mem
  have hsbrk := (sbrk_le hgrow.1).1
  have hextra : extra a = a + 32 := Nat.mod_eq_of_lt ha
  have hpage := hheld.page
  have hfin := hheld.fin_le
  have hmax := hheld.max
  rw [moved_fin] at hpage hfin
  obtain ⟨n, hn⟩ : ∃ n, n + 32 = g.top (extra a) := ⟨g.top (extra a) - 32, by unfold top at *; omega⟩
  have hge : w.last + (a + 32) ≤ n := by
    unfold top at hn
    omega
  have hn16 : 16 ∣ n := by
    unfold PAGE_SIZE at hpage
    omega
  -- The chunk before the rear guard is given out, so the new free chunk is not joined to it yet.
  rw [← hn, Nat.add_sub_cancel, hg.tiled.moveGuard_eq (by omega) hn16 (by omega) hlast, if_neg hcw.2] at heq
  obtain ⟨r1, hsize1⟩ := hg.tiled.grow (n := n) (by omega) hn16 (by omega) rfl
  have hco1 := hg.tiled.grow_ahead (n := n) (by omega) hlast
  have hnext : Next (insert n w.chunks) c w.last := hlast.insert_above (by omega)
  have hc1 := (r1.used c).mpr hcw
  obtain ⟨v2, r2, hlast2, hle2, hsize2, hco2⟩ := r1.tiled.widen hc1 hnext rfl
  have hsame := (r1.same c hcw).2.1
  have hwide := hsize2 List.mem_cons_self
  have r' := r.trans ((r1.resized hcw hsize).trans r2 le_rfl (hsize.trans_eq hsame.symm)) le_rfl le_rfl
  rw [heq]
  refine resizes_cut hc hs hs16 hac (w := v2) (g := (g.moved (n + 32) proc).withArena
    (glueNext ((g.extend w.last n).insertFreeChunk w.last) c)) ⟨r2.tiled, r2.start.trans hg.front, ?_⟩ ?_ r' ?_ ?_
  · rw [withArena_fin, moved_fin, hlast2]
  · rw [← hn] at hheld
    exact hheld.withArena _
  · rw [withArena_toArena]
    omega
  · intro hv
    rw [withArena_toArena]
    refine hco2 fun x y hxy hx hy => ?_
    have hxc := hco1 (hco hv) x y hxy hx hy
    exact hc1.2 (hxc ▸ hx)

end

theorem alignSize_data (h0 : n ≠ 0) (hn : n + 15 < 2 ^ 64) : n ≤ alignSize n HEAP_DATA_ALIGN ∧
    16 ≤ alignSize n HEAP_DATA_ALIGN ∧ 16 ∣ alignSize n HEAP_DATA_ALIGN ∧ alignSize n HEAP_DATA_ALIGN < 2 ^ 64 ∧
      alignSize (alignSize n HEAP_DATA_ALIGN) HEAP_DATA_ALIGN = alignSize n HEAP_DATA_ALIGN := by
  unfold alignSize HEAP_DATA_ALIGN
  omega

theorem findLoop_large (hf : h.Formed v) (ha : 2 ^ 64 < a + 48) : h.findLoop a (2 ^ 64) h.freeList = 0 := by
  refine ((hf.tiled.find a).resolve_right ?_).1
  rintro ⟨hmem, hsz⟩
  have := hf.tiled.size_lt (hf.tiled.inner _ hmem)
  omega

/-- `realloc` of a block that was given out, to a size that does not wrap around or for which there is no memory. -/
theorem realloc_spec (hf : h.Formed v) (hh : h.Held) (hc : v.Used c) (h0 : n ≠ 0) (hn : n + 15 < 2 ^ 64)
    (hfit : n + 47 < 2 ^ 64 ∨ ¬h.Grows (extra (alignSize n HEAP_DATA_ALIGN))) :
    h.Resizes v c (alignSize n HEAP_DATA_ALIGN) (h.realloc (c + 32) n) := by
  obtain ⟨-, hs, hs16, hlt, hidem⟩ := alignSize_data h0 hn
  have hfit' : alignSize n HEAP_DATA_ALIGN + 48 ≤ 2 ^ 64 ∨ ¬h.Grows (extra (alignSize n HEAP_DATA_ALIGN)) :=
    hfit.imp_left fun hn => by have := (alignSize_fits h0 hn).2; omega
  unfold realloc
  simp only [if_neg (Nat.succ_ne_zero (c + 31)), if_neg h0, hf.tiled.sub64_header hc]
  generalize alignSize n HEAP_DATA_ALIGN = a at *
  by_cases hac : a ≤ h.toArena.size c
  · rw [if_pos hac]
    exact resizes_shrink hf hh hc hs hs16 hac
  rw [if_neg hac]
  have hac := not_le.mp hac
  obtain ⟨b, hcb⟩ := hf.tiled.exists_next hc.1.1 hc.1.2.2
  obtain ⟨w, r, hlast, hsize, -, hco⟩ := hf.tiled.widen hc hcb rfl
  have hg := hf.withArena r.tiled r.start hlast
  have hgh := hh.withArena (glueNext h.toArena c)
  have hgrow : (h.withArena (glueNext h.toArena c)).Grows (extra a) ↔ h.Grows (extra a) := Iff.rfl
  rw [← withArena_toArena h (glueNext h.toArena c)] at r hsize hco
  generalize h.withArena (glueNext h.toArena c) = g at *
  by_cases hag : a ≤ g.toArena.size c
  · rw [if_pos hag]
    exact resizes_cut hc hs hs16 hac hg hgh r hag hco
  rw [if_neg hag]
  have hcw := (r.used c).mpr hc
  obtain ⟨y, hcy⟩ := hg.tiled.exists_next hcw.1.1 hcw.1.2.2
  rw [(hg.tiled.step c y hcy).1]
  have hstill := fun hv => (hco hv).1
  by_cases hy : g.toArena.size y = 0
  · -- Only the rear guard has no data.
    have hylast : y = w.last := by
      by_contra hne
      have hlow := hg.tiled.low c hcy.left
      have hlt := hcy.lt
      have := hg.tiled.room y ⟨hcy.right, by omega, hne⟩
      omega
    rw [if_pos hy]
    by_cases hgr : g.Grows (extra a)
    · have hfits := hfit'.resolve_right (not_not.mpr (hgrow.mp hgr))
      rw [if_neg ((heapExpand_ne hg hgh).mpr hgr)]
      exact resizes_grow hc hs hs16 hac hg hgh r (hylast ▸ hcy) (by omega) hgr hsize hstill
    · obtain ⟨proc, heq, hheld⟩ := heapExpand_stuck hgh hgr
      simp only [heq, if_true]
      exact resizes_keep hc hac (hg.moved proc) hheld r hsize hstill
  · rw [if_neg hy]
    by_cases hob : g.Obtains a
    · have hfits : a + 48 ≤ 2 ^ 64 := by
        refine hfit'.elim id fun hno => ?_
        by_contra hwrap
        refine hno (hgrow.mp ?_)
        rw [← hidem]
        refine hob.2.resolve_left (not_not.mpr ?_)
        rw [hidem]
        exact findLoop_large hg (by omega)
      obtain ⟨g', w', d, heq, hgives⟩ := malloc_gives hg hgh hob (by omega)
      rw [hidem] at hgives
      simp only [heq, if_neg (Nat.succ_ne_zero (d + 31))]
      exact resizes_move hc hac r hgives hsize hstill
    · obtain ⟨proc, heq, hheld⟩ := malloc_null hgh hob
      simp only [heq, if_true]
      exact resizes_keep hc hac (hg.moved proc) hheld r hsize hstill

theorem realloc_wraps (hf : h.Formed v) (hh : h.Held) (hc : v.Used c) (hn : n < 2 ^ 64) (hwrap : 2 ^ 64 ≤ n + 47)
    (hgrow : n + 15 < 2 ^ 64 → h.Grows (extra (alignSize n HEAP_DATA_ALIGN))) : (h.realloc (c + 32) n).2 ≠ 0 := by
  have h0 : n ≠ 0 := by omega
  unfold realloc
  simp only [if_neg (Nat.succ_ne_zero (c + 31)), if_neg h0, hf.tiled.sub64_header hc]
  by_cases hbig : n + 15 < 2 ^ 64
  · obtain ⟨hle, -, -, -, hidem⟩ := alignSize_data h0 hbig
    have hg := hgrow hbig
    have ha : 2 ^ 64 < alignSize n HEAP_DATA_ALIGN + 48 := by
      unfold alignSize HEAP_DATA_ALIGN
      omega
    generalize alignSize n HEAP_DATA_ALIGN = a at *
    have hsz := hf.tiled.size_lt hc.1
    obtain ⟨b, hcb⟩ := hf.tiled.exists_next hc.1.1 hc.1.2.2
    obtain ⟨w, r, hlast, -⟩ := hf.tiled.widen hc hcb rfl
    have hf' := hf.withArena r.tiled r.start hlast
    have hh' := hh.withArena (glueNext h.toArena c)
    have hg' : (h.withArena (glueNext h.toArena c)).Grows (extra a) := hg
    have hsz' := hf'.tiled.size_lt ((r.used c).mpr hc).1
    generalize h.withArena (glueNext h.toArena c) = g at *
    rw [if_neg (by omega), if_neg (by omega)]
    split
    · rw [if_neg ((heapExpand_ne hf' hh').mpr hg')]
      exact Nat.succ_ne_zero _
    · have hob : g.Obtains a := ⟨by omega, .inr (by rwa [hidem])⟩
      have hne := (malloc_ne hf' hh').mpr hob
      rw [if_neg hne]
      exact hne
  · have hzero : alignSize n HEAP_DATA_ALIGN = 0 := by
      unfold alignSize HEAP_DATA_ALIGN
      omega
    rw [hzero, if_pos (Nat.zero_le _)]
    exact Nat.succ_ne_zero _

end Heap

def Call.Below (bound : Nat) : Call → Prop
  | .malloc size => size < bound
  | .calloc num size => num < bound ∧ size < bound
  | .free _ => True
  | .realloc _ size => size < bound

instance {bound : Nat} : (call : Call) → Decidable (call.Below bound)
  | .malloc _ => inferInstanceAs (Decidable (_ < _))
  | .calloc _ _ => inferInstanceAs (Decidable (_ ∧ _))
  | .free _ => inferInstanceAs (Decidable True)
  | .realloc _ _ => inferInstanceAs (Decidable (_ < _))

namespace Client

variable {s : Client} {v v' : Tiling} {call : Call} {h' : Heap} {a c n : Nat} {ptr k m q i : Nat} {p : Process}
  {h : Heap}

/-- The chunks tile the heap, and the live blocks are chunks of their own that are large enough. -/
structure Sound (s : Client) (v : Tiling) : Prop where
  formed : s.heap.Formed v
  serves : s.heap.toArena.Serves v s.live
  disjoint : ∀ p q n m, s.live p = some n → s.live q = some m → p ≠ q → p + n ≤ q ∨ q + m ≤ p

theorem Sound.of_serves (hf : s.heap.Formed v) (hs : s.heap.toArena.Serves v s.live) : s.Sound v := by
  refine ⟨hf, hs, fun p q n m hp hq hne => ?_⟩
  obtain ⟨c, hc, rfl, hn⟩ := hs p n hp
  obtain ⟨d, hd, rfl, hm⟩ := hs q m hq
  have := hf.tiled.region hc.1.1 hd.1.1
  omega

def Valid (s : Client) (call : Call) : Prop := call.block = 0 ∨ (s.live call.block).isSome

instance : Decidable (s.Valid call) := inferInstanceAs (Decidable (_ ∨ _))

/-- No size wraps around, where it is rounded or where the size of a header is added, or there is no memory for it then.
-/
def Fits (s : Client) : Call → Prop
  | .malloc size => size + 47 < 2 ^ 64 ∨ ¬s.heap.Obtains size
  | .calloc num size => num * size + 47 < 2 ^ 64 ∨ ¬s.heap.Obtains (num * size % 2 ^ 64)
  | .free _ => True
  | .realloc ptr size =>
    if ptr = 0 then size + 47 < 2 ^ 64 ∨ ¬s.heap.Obtains size
    else size + 47 < 2 ^ 64 ∨ size + 15 < 2 ^ 64 ∧ ¬s.heap.Grows (Heap.extra (alignSize size HEAP_DATA_ALIGN))

instance : (call : Call) → Decidable (s.Fits call)
  | .malloc _ => inferInstanceAs (Decidable (_ ∨ _))
  | .calloc _ _ => inferInstanceAs (Decidable (_ ∨ _))
  | .free _ => inferInstanceAs (Decidable True)
  | .realloc ptr _ => inferInstanceAs (Decidable (if ptr = 0 then _ else _))

/-- No block is cut before a free chunk. -/
def Tidy (s : Client) : Call → Prop
  | .realloc ptr size =>
    ptr = 0 ∨ size = 0 ∨ s.heap.Tidy (sub64 ptr HEAP_HEADER_SIZE) (alignSize size HEAP_DATA_ALIGN)
  | _ => True

instance : (call : Call) → Decidable (s.Tidy call)
  | .malloc _ => inferInstanceAs (Decidable True)
  | .calloc _ _ => inferInstanceAs (Decidable True)
  | .free _ => inferInstanceAs (Decidable True)
  | .realloc _ _ => inferInstanceAs (Decidable (_ ∨ _ ∨ _))

theorem Sound.live_zero (hs : s.Sound v) : Function.update s.live 0 none = s.live := by
  refine Function.update_eq_self_iff.mpr ?_
  cases hl : s.live 0 with
  | none => rfl
  | some n =>
    obtain ⟨c, -, h0, -⟩ := hs.serves 0 n hl
    omega

/-- The outcome of a call: the heap is sound, and free neighbours are joined unless the call leaves them. -/
def Kept (s : Client) (v : Tiling) (call : Call) (s' : Client) : Prop :=
  ∃ v', s'.Sound v' ∧ s'.heap.Held ∧ (v.Coalesced → (v'.Coalesced ↔ s.Tidy call))

theorem step_of_ne (call : Call) (hp : (call.run s.heap).2 ≠ 0) : s.step call =
    ⟨(call.run s.heap).1,
      Function.update (Function.update s.live call.block none) (call.run s.heap).2 (some call.bytes)⟩ := by
  unfold step
  simp only [if_pos hp]

theorem step_of_null (call : Call) (hp : (call.run s.heap).2 = 0) (hb : call.bytes ≠ 0) :
    s.step call = ⟨(call.run s.heap).1, s.live⟩ := by
  unfold step
  simp only [if_neg (not_not.mpr hp), if_neg hb]

theorem step_of_none (call : Call) (hp : (call.run s.heap).2 = 0) (hb : call.bytes = 0) :
    s.step call = ⟨(call.run s.heap).1, Function.update s.live call.block none⟩ := by
  unfold step
  simp only [if_neg (not_not.mpr hp), if_pos hb]

theorem kept_null (proc : Process) (hs : s.Sound v) (htidy : s.Tidy call) (hblock : call.block = 0)
    (hr : call.run s.heap = (s.heap.moved s.heap.fin proc, 0)) (hh : (s.heap.moved s.heap.fin proc).Held) :
    s.Kept v call (s.step call) := by
  have hstep : s.step call = ⟨s.heap.moved s.heap.fin proc, s.live⟩ := by
    have hp : (call.run s.heap).2 = 0 := by rw [hr]
    by_cases hb : call.bytes = 0
    · rw [step_of_none call hp hb, hr, hblock, hs.live_zero]
    · rw [step_of_null call hp hb, hr]
  rw [hstep]
  exact ⟨v, ⟨hs.formed.moved proc, hs.serves, hs.disjoint⟩, hh, fun hco => iff_of_true hco htidy⟩

theorem kept_gives (hs : s.Sound v) (htidy : s.Tidy call) (hblock : call.block = 0)
    (hr : call.run s.heap = (h', c + 32)) (hg : s.heap.Gives v a h' v' c) (hn : call.bytes ≤ a) :
    s.Kept v call (s.step call) := by
  rw [step_of_ne call (by rw [hr]; exact Nat.succ_ne_zero _), hr, hblock, hs.live_zero]
  have hu := (hg.used c).mpr (.inr rfl)
  exact ⟨v', .of_serves hg.formed ((hs.serves.same hg.same).insert hu (hn.trans hg.size)), hg.held,
    fun hco => iff_of_true (hg.coalesced hco) htidy⟩

theorem not_sound_of_large (call : Call) (hp : (call.run s.heap).2 ≠ 0) (hb : 2 ^ 64 ≤ call.bytes + 47) :
    ¬∃ v, (s.step call).Sound v := by
  rintro ⟨v, hs⟩
  rw [step_of_ne call hp] at hs
  obtain ⟨c, hc, -, hn⟩ := hs.serves _ call.bytes (Function.update_self ..)
  have := hs.formed.tiled.size_lt hc.1
  omega

theorem kept_malloc (hs : s.Sound v) (hh : s.heap.Held) (htidy : s.Tidy call) (hblock : call.block = 0)
    (hr : call.run s.heap = s.heap.malloc call.bytes)
    (hfit : call.bytes + 47 < 2 ^ 64 ∨ ¬s.heap.Obtains call.bytes) : s.Kept v call (s.step call) := by
  by_cases hob : s.heap.Obtains call.bytes
  · have hn := hfit.resolve_right (not_not.mpr hob)
    obtain ⟨h', v', c, heq, hg⟩ := Heap.malloc_gives hs.formed hh hob hn
    exact kept_gives hs htidy hblock (hr.trans heq) hg (Heap.alignSize_fits hob.1 hn).1
  · obtain ⟨proc, heq, hheld⟩ := Heap.malloc_null hh hob
    exact kept_null proc hs htidy hblock (hr.trans heq) hheld

theorem kept_calloc {num size : Nat} (hs : s.Sound v) (hh : s.heap.Held) (hfit : s.Fits (.calloc num size)) :
    s.Kept v (.calloc num size) (s.step (.calloc num size)) := by
  by_cases h0 : num = 0 ∨ size = 0
  · exact kept_null s.heap.proc hs trivial rfl (if_pos h0) hh
  by_cases hob : s.heap.Obtains (num * size % 2 ^ 64)
  · have hn := hfit.resolve_right (not_not.mpr hob)
    have hmod : num * size % 2 ^ 64 = num * size := Nat.mod_eq_of_lt (by omega)
    rw [hmod] at hob
    obtain ⟨h', v', c, heq, hg⟩ := Heap.malloc_gives hs.formed hh hob hn
    have hle := (Heap.alignSize_fits hob.1 hn).1
    have hsize := hg.size
    have hr : (Call.calloc num size).run s.heap =
        (h'.withArena (clear h'.toArena (c + 32) (num * size)), c + 32) := by
      unfold Call.run Heap.calloc
      simp only [if_neg h0, hmod, heq, if_neg (Nat.succ_ne_zero (c + 31))]
    exact kept_gives hs trivial rfl hr (hg.write rfl fun w hw => if_pos (by omega)) hle
  · obtain ⟨proc, heq, hheld⟩ := Heap.malloc_null hh hob
    refine kept_null proc hs trivial rfl ?_ hheld
    unfold Call.run Heap.calloc
    simp only [if_neg h0, heq, if_true]

theorem kept_free (hs : s.Sound v) (hh : s.heap.Held) (hv : s.Valid call) (hptr : call.block = ptr)
    (htidy : s.Tidy call) (hr : call.run s.heap = (s.heap.free ptr, 0)) (hb : call.bytes = 0) :
    s.Kept v call (s.step call) := by
  by_cases h0 : ptr = 0
  · have hpos : 0 < s.heap.start := hs.formed.front ▸ hs.formed.tiled.pos
    rw [h0, Heap.free_null hpos] at hr
    exact kept_null s.heap.proc hs htidy (hptr.trans h0) hr hh
  · unfold Valid at hv
    rw [hptr] at hv
    obtain ⟨n, hn⟩ := Option.isSome_iff_exists.mp (hv.resolve_left h0)
    obtain ⟨c, hc, rfl, -⟩ := hs.serves ptr n hn
    obtain ⟨v', hf', hh', -, hsame, hco⟩ := Heap.free_spec hs.formed hh hc
    rw [step_of_none call (by rw [hr]) hb, hr, hptr]
    exact ⟨v', .of_serves hf' (hs.serves.erase hsame), hh', fun hv => iff_of_true (hco hv) htidy⟩

theorem fits_realloc (hp : ptr ≠ 0) : s.Fits (.realloc ptr n) ↔ n + 47 < 2 ^ 64 ∨
    n + 15 < 2 ^ 64 ∧ ¬s.heap.Grows (Heap.extra (alignSize n HEAP_DATA_ALIGN)) := by
  change (if ptr = 0 then _ else _) ↔ _
  rw [if_neg hp]

theorem kept_realloc (hs : s.Sound v) (hh : s.heap.Held) (hc : v.Used c) (h0 : n ≠ 0)
    (hfit : s.Fits (.realloc (c + 32) n)) : s.Kept v (.realloc (c + 32) n) (s.step (.realloc (c + 32) n)) := by
  rw [fits_realloc (Nat.succ_ne_zero _)] at hfit
  have hn : n + 15 < 2 ^ 64 := by omega
  obtain ⟨v', d, k, hl, hco, hres⟩ := Heap.realloc_spec hs.formed hh hc h0 hn (hfit.imp_right And.right)
  have htidy : s.Tidy (.realloc (c + 32) n) ↔ s.heap.Tidy c (alignSize n HEAP_DATA_ALIGN) := by
    change c + 32 = 0 ∨ n = 0 ∨ s.heap.Tidy (sub64 (c + 32) HEAP_HEADER_SIZE) _ ↔ _
    rw [hs.formed.tiled.sub64_header hc]
    simp [h0]
  rcases hres with ⟨hret, -, hsize⟩ | ⟨hret, rfl, -, hsize⟩
  · have hne : ((Call.realloc (c + 32) n).run s.heap).2 ≠ 0 := by
      change (s.heap.realloc (c + 32) n).2 ≠ 0
      rw [hret]
      exact Nat.succ_ne_zero _
    rw [step_of_ne _ hne]
    change s.Kept v _ ⟨(s.heap.realloc (c + 32) n).1, Function.update _ (s.heap.realloc (c + 32) n).2 _⟩
    rw [hret]
    have hle := (Heap.alignSize_data h0 hn).1
    exact ⟨v', .of_serves hl.formed ((hs.serves.erase hl.same).insert hl.block (hle.trans hsize)), hl.held,
      fun hv => (hco hv).trans htidy.symm⟩
  · rw [step_of_null (.realloc (d + 32) n) hret h0]
    refine ⟨v', .of_serves hl.formed fun p m hp => ?_, hl.held, fun hv => (hco hv).trans htidy.symm⟩
    obtain ⟨x, hx, rfl, hm⟩ := hs.serves p m hp
    by_cases hxd : x = d
    · rw [hxd] at hm ⊢
      exact ⟨d, hl.block, rfl, hm.trans hsize⟩
    · have hsame := hl.same x hx hxd
      exact ⟨x, hsame.1, rfl, hm.trans_eq hsame.2.1.symm⟩

theorem kept_step (hs : s.Sound v) (hh : s.heap.Held) (hv : s.Valid call) (hfit : s.Fits call) :
    s.Kept v call (s.step call) := by
  cases call with
  | malloc size => exact kept_malloc hs hh trivial rfl rfl hfit
  | calloc num size => exact kept_calloc hs hh hfit
  | free ptr => exact kept_free hs hh hv rfl trivial rfl rfl
  | realloc ptr size =>
    by_cases hp : ptr = 0
    · subst hp
      exact kept_malloc hs hh (.inl rfl) rfl rfl hfit
    by_cases h0 : size = 0
    · subst h0
      exact kept_free hs hh hv rfl (.inr (.inl rfl)) ((if_neg hp).trans (if_pos rfl)) rfl
    · obtain ⟨n, hn⟩ := Option.isSome_iff_exists.mp (hv.resolve_left hp)
      obtain ⟨c, hc, rfl, -⟩ := hs.serves ptr n hn
      exact kept_realloc hs hh hc h0 hfit

theorem not_sound_step (hs : s.Sound v) (hh : s.heap.Held) (hv : s.Valid call) (hb : call.Below (2 ^ 64))
    (hfit : ¬s.Fits call) : ¬∃ v', (s.step call).Sound v' := by
  cases call with
  | malloc size =>
    obtain ⟨hn, hob⟩ := not_or.mp hfit
    exact not_sound_of_large (.malloc size)
      ((Heap.malloc_ne hs.formed hh).mpr (not_not.mp hob)) (not_lt.mp hn)
  | calloc num size =>
    obtain ⟨hn, hob⟩ := not_or.mp hfit
    have h0 : ¬(num = 0 ∨ size = 0) := by
      rw [← Nat.mul_eq_zero]
      omega
    have hne := (Heap.malloc_ne hs.formed hh).mpr (not_not.mp hob)
    refine not_sound_of_large (.calloc num size) ?_ (not_lt.mp hn)
    unfold Call.run Heap.calloc
    simp only [if_neg h0, if_neg hne]
    exact hne
  | free ptr => exact absurd trivial hfit
  | realloc ptr size =>
    by_cases hp : ptr = 0
    · subst hp
      obtain ⟨hn, hob⟩ := not_or.mp hfit
      exact not_sound_of_large (.realloc 0 size)
        ((Heap.malloc_ne hs.formed hh).mpr (not_not.mp hob)) (not_lt.mp hn)
    · rw [fits_realloc hp, not_or, not_and, not_not] at hfit
      obtain ⟨n, hn⟩ := Option.isSome_iff_exists.mp (hv.resolve_left hp)
      obtain ⟨c, hc, rfl, -⟩ := hs.serves ptr n hn
      exact not_sound_of_large (.realloc (c + 32) size)
        (Heap.realloc_wraps hs.formed hh hc hb (not_lt.mp hfit.1) hfit.2) (not_lt.mp hfit.1)

/-- A process as `execve` leaves it. -/
structure Launched (p : Process) : Prop where
  loaded : p.Loaded
  pos : 0 < p.start
  cap : p.start ≤ p.max
  max : p.max = USER_MMAP

theorem Launched.held (hl : Launched p) (mem : Nat → Nat) :
    Heap.Held ⟨⟨mem, 0⟩, p.start, p.start, p⟩ where
  area := hl.loaded.area
  page := hl.loaded.start
  pos := hl.pos
  low := le_rfl
  high := hl.loaded.fin.ge
  cap := hl.cap
  max := by
    rw [hl.max]
    decide

theorem guards_sound (hh : h.Held) (hlist : h.freeList = 0) (hfin : h.fin = h.start + PAGE_SIZE)
    (hpos : 0 < h.start) :
    ∃ v, (⟨h.withArena (h.toArena.guards h.start h.fin), fun _ => none⟩ : Client).Sound v ∧ v.Coalesced := by
  have hmax := hh.max
  have hle := hh.fin_le
  have hpage := hh.page
  obtain ⟨z, hz⟩ : ∃ z, z + 32 = h.fin := ⟨h.start + 4064, by rw [hfin]; rfl⟩
  have hz' : z = h.start + 4064 := by
    unfold PAGE_SIZE at hfin
    omega
  have h16 : 16 ∣ h.start := by
    unfold PAGE_SIZE at hpage hfin
    omega
  have ht := Arena.guards_tiled (h := h.toArena) (z := z) hlist hpos h16 (by omega) (by omega) (by omega)
  rw [hz] at ht
  refine ⟨_, .of_serves ⟨ht, rfl, hz⟩ fun p n hp => ?_, fun a b hab ha hb => ?_⟩
  · exact absurd hp (by simp)
  · rw [List.mem_singleton] at ha hb
    exact hab.lt.ne (ha.trans hb.symm)

theorem init_sound (hl : Launched p) (mem : Nat → Nat) :
    (p.Reaches (p.start + PAGE_SIZE) → ∃ v, (init mem p).Sound v ∧ v.Coalesced ∧ (init mem p).heap.Held) ∧
      ((∃ v, (init mem p).Sound v) → p.Reaches (p.start + PAGE_SIZE)) := by
  have hh := hl.held mem
  have hbrk : p.sysBrk 0 = (p, .ok p.start) := by
    rw [← hl.loaded.fin]
    rfl
  have hinit : Heap.init mem p =
      let r := Heap.heapSbrk ⟨⟨mem, 0⟩, p.start, p.start, p⟩ HEAP_SBRK_ALIGN
      if !r.2 then r.1 else r.1.withArena (r.1.toArena.guards r.1.start r.1.fin) := by
    unfold Heap.init
    simp only [hbrk]
  have htop : Heap.top ⟨⟨mem, 0⟩, p.start, p.start, p⟩ HEAP_SBRK_ALIGN = p.start + PAGE_SIZE := rfl
  rcases Heap.heapSbrk_cases hh HEAP_SBRK_ALIGN with ⟨hg, proc, heq, hheld⟩ | ⟨hg, proc, heq, -⟩
  · rw [htop] at heq hheld
    refine ⟨fun _ => ?_, fun _ => hg.2⟩
    unfold init
    rw [hinit, heq]
    obtain ⟨v, hs, hco⟩ := guards_sound hheld rfl rfl hl.pos
    exact ⟨v, hs, hco, hheld.withArena _⟩
  · have hno : ¬p.Reaches (p.start + PAGE_SIZE) := fun hr => hg ⟨by decide, hr⟩
    refine ⟨fun hr => absurd hr hno, ?_⟩
    rintro ⟨v, hs⟩
    unfold init at hs
    rw [hinit, heq] at hs
    have hfront := hs.formed.front
    have hrear := hs.formed.rear
    have hlt := hs.formed.tiled.lt
    change v.start = p.start at hfront
    change v.last + 32 = p.start at hrear
    omega

/-- The heap is sound, and no two neighbouring chunks are both free. -/
structure WellFormed (s : Client) (v : Tiling) : Prop extends s.Sound v where
  coalesced : v.Coalesced

theorem wellFormed_step (hs : s.Sound v) (hco : v.Coalesced) (hh : s.heap.Held) (hv : s.Valid call)
    (hb : call.Below (2 ^ 64)) : (∃ v', (s.step call).WellFormed v') ↔ s.Fits call ∧ s.Tidy call := by
  constructor
  · rintro ⟨w, hw⟩
    have hfit : s.Fits call := by
      by_contra hfit
      exact not_sound_step hs hh hv hb hfit ⟨w, hw.toSound⟩
    obtain ⟨v', hs', -, htidy⟩ := kept_step hs hh hv hfit
    have hstart := hs'.formed.front.trans hw.formed.front.symm
    exact ⟨hfit, (htidy hco).mp (hs'.formed.tiled.coalesced_unique hw.formed.tiled hstart hw.coalesced)⟩
  · rintro ⟨hfit, ht⟩
    obtain ⟨v', hs', -, htidy⟩ := kept_step hs hh hv hfit
    exact ⟨v', hs', (htidy hco).mpr ht⟩

theorem below_mono (hkm : k ≤ m) (hb : call.Below k) : call.Below m := by
  cases call with
  | malloc size => exact Nat.lt_of_lt_of_le hb hkm
  | calloc num size => exact ⟨Nat.lt_of_lt_of_le hb.1 hkm, Nat.lt_of_lt_of_le hb.2 hkm⟩
  | free ptr => trivial
  | realloc ptr size => exact Nat.lt_of_lt_of_le hb hkm

/-- With sizes below 2 ^ 62 the heap is well formed at any time exactly if `__libc_heap_init` gets a page, no size that
`calloc` computes wraps around, and `realloc` cuts no block before a free chunk. -/
theorem libc_heap_iff (hl : Launched p) (mem : Nat → Nat) (calls : List Call)
    (hv : Along step (fun s call => s.Valid call ∧ call.Below (2 ^ 62)) (init mem p) calls) :
    ((∃ v, (init mem p).WellFormed v) ∧
      Along step (fun s call => ∃ v, (s.step call).WellFormed v) (init mem p) calls) ↔
    p.Reaches (p.start + PAGE_SIZE) ∧ Along step (fun s call => s.Fits call ∧ s.Tidy call) (init mem p) calls := by
  obtain ⟨hmake, hneed⟩ := init_sound hl mem
  have hinit : (∃ v, (init mem p).WellFormed v) ↔ p.Reaches (p.start + PAGE_SIZE) :=
    ⟨fun ⟨v, hw⟩ => hneed ⟨v, hw.toSound⟩, fun hr => (hmake hr).imp fun v hs => ⟨hs.1, hs.2.1⟩⟩
  rw [hinit]
  refine and_congr_right fun hr => ?_
  refine Along.congr (I := fun s => ∃ v, s.Sound v ∧ v.Coalesced ∧ s.heap.Held) ?_ ?_ (hmake hr) hv
  · rintro s call ⟨v, hs, hco, hh⟩ ⟨hvalid, -⟩ ⟨hfit, ht⟩
    obtain ⟨v', hs', hh', htidy⟩ := kept_step hs hh hvalid hfit
    exact ⟨v', hs', (htidy hco).mpr ht, hh'⟩
  · rintro s call ⟨v, hs, hco, hh⟩ ⟨hvalid, hb⟩
    exact wellFormed_step hs hco hh hvalid (below_mono (by omega) hb)

def roomy : Process := ⟨0x400000, 0x400000, USER_MMAP, ⟨fun _ => none, some, 0⟩⟩

theorem roomy_launched : Launched roomy := ⟨⟨by decide, rfl, fun _ _ _ => rfl⟩, by decide, by decide, rfl⟩

theorem libc_heap_grow_free :
    (∃ v, (init (fun _ => 0) roomy).WellFormed v) ∧
      Along step (fun s call => ∃ v, (s.step call).WellFormed v) (init (fun _ => 0) roomy)
        [.malloc 100, .realloc 0x400040 200, .free 0x400040] :=
  (libc_heap_iff roomy_launched (fun _ => 0) _ (by decide +kernel)).mpr (by decide +kernel)

/-- A block of 112 bytes is cut to 16. What is cut off is free, and so is what follows. -/
theorem libc_free_neighbours :
    Along step (fun s call => s.Valid call ∧ call.Below (2 ^ 62)) (init (fun _ => 0) roomy)
        [.malloc 100, .realloc 0x400040 10] ∧
      ¬∃ v, ([Call.malloc 100, .realloc 0x400040 10].foldl step (init (fun _ => 0) roomy)).WellFormed v := by
  have hvalid : Along step (fun s call => s.Valid call ∧ call.Below (2 ^ 62)) (init (fun _ => 0) roomy)
      [.malloc 100, .realloc 0x400040 10] := by decide +kernel
  obtain ⟨v, hs, hco, hh⟩ := (init_sound roomy_launched fun _ => 0).1 (by decide +kernel)
  obtain ⟨v', hs', hh', htidy⟩ := kept_step hs hh hvalid.1.1 (by decide +kernel)
  refine ⟨hvalid, fun hw => ?_⟩
  have hcut := (wellFormed_step hs' ((htidy hco).mpr trivial) hh' hvalid.2.1.1 (by decide)).mp hw
  exact absurd hcut.2 (by decide +kernel)

/-- The heap stays sound, and a pointer that is returned has a block of the size that was asked for. -/
def Meets (s : Client) (call : Call) : Prop :=
  ∃ v, (s.step call).Sound v ∧
    ((call.run s.heap).2 ≠ 0 →
      ∃ c, v.Used c ∧ (call.run s.heap).2 = c + 32 ∧ call.bytes ≤ (call.run s.heap).1.toArena.size c) ∧
    (2 ^ 64 ≤ call.bytes → (call.run s.heap).2 = 0)

theorem meets_iff : s.Meets call ↔ ∃ v, (s.step call).Sound v := by
  constructor
  · rintro ⟨v, hs, -⟩
    exact ⟨v, hs⟩
  · rintro ⟨v, hs⟩
    refine ⟨v, hs, fun hp => ?_, fun hbig => ?_⟩
    · rw [step_of_ne call hp] at hs
      exact hs.serves _ call.bytes (Function.update_self ..)
    · by_contra hp
      exact not_sound_of_large call hp (by omega) ⟨v, hs⟩

/-- With any numbers of 64 bits, all calls give what was asked for exactly if `__libc_heap_init` gets a page and no size
wraps around, unless there is no memory for what it has become. -/
theorem libc_sizes_iff (hl : Launched p) (mem : Nat → Nat) (calls : List Call)
    (hv : Along step (fun s call => s.Valid call ∧ call.Below (2 ^ 64)) (init mem p) calls) :
    ((∃ v, (init mem p).Sound v) ∧ Along step Meets (init mem p) calls) ↔
      p.Reaches (p.start + PAGE_SIZE) ∧ Along step Fits (init mem p) calls := by
  obtain ⟨hmake, hneed⟩ := init_sound hl mem
  have hinit : (∃ v, (init mem p).Sound v) ↔ p.Reaches (p.start + PAGE_SIZE) :=
    ⟨hneed, fun hr => (hmake hr).imp fun v hs => hs.1⟩
  rw [hinit]
  refine and_congr_right fun hr => ?_
  refine Along.congr (I := fun s => ∃ v, s.Sound v ∧ s.heap.Held) ?_ ?_
    ((hmake hr).imp fun v hs => ⟨hs.1, hs.2.2⟩) hv
  · rintro s call ⟨v, hs, hh⟩ ⟨hvalid, -⟩ hfit
    obtain ⟨v', hs', hh', -⟩ := kept_step hs hh hvalid hfit
    exact ⟨v', hs', hh'⟩
  · rintro s call ⟨v, hs, hh⟩ ⟨hvalid, hb⟩
    rw [meets_iff]
    constructor
    · intro hex
      by_contra hfit
      exact not_sound_step hs hh hvalid hb hfit hex
    · intro hfit
      obtain ⟨v', hs', -, -⟩ := kept_step hs hh hvalid hfit
      exact ⟨v', hs'⟩

theorem libc_sizes_large :
    (∃ v, (init (fun _ => 0) roomy).Sound v) ∧ Along step Meets (init (fun _ => 0) roomy)
      [.malloc (2 ^ 64 - 48), .calloc 3 100, .calloc (2 ^ 32) (2 ^ 32), .realloc 0x400040 (2 ^ 63)] :=
  (libc_sizes_iff roomy_launched (fun _ => 0) _ (by decide +kernel)).mpr (by decide +kernel)

/-- A request for 2 ^ 64 - 1 bytes is rounded to none and returns a pointer. -/
theorem libc_size_wraps :
    (init (fun _ => 0) roomy).Valid (.malloc (2 ^ 64 - 1)) ∧
      ((init (fun _ => 0) roomy).heap.malloc (2 ^ 64 - 1)).2 = 0x400040 ∧
      ¬(init (fun _ => 0) roomy).Meets (.malloc (2 ^ 64 - 1)) := by
  have hret : ((init (fun _ => 0) roomy).heap.malloc (2 ^ 64 - 1)).2 = 0x400040 := by decide +kernel
  refine ⟨.inl rfl, hret, fun hm => ?_⟩
  refine not_sound_of_large (.malloc (2 ^ 64 - 1)) ?_ ?_ (meets_iff.mp hm)
  · change ((init (fun _ => 0) roomy).heap.malloc (2 ^ 64 - 1)).2 ≠ 0
    rw [hret]
    decide
  · change 2 ^ 64 ≤ 2 ^ 64 - 1 + 47
    decide

/-! ### The data of the blocks -/

def byte (h : Heap) (a : Nat) : Nat := h.mem (a / 8 * 8) / 256 ^ (a % 8) % 256

theorem byte_congr {p : Nat} (hp : 8 ∣ p) (hq : 8 ∣ q)
    (hmem : ∀ i < k, h'.mem (q + i) = h.mem (p + i)) (hi : i < k) : byte h' (q + i) = byte h (p + i) := by
  have hpi : (p + i) / 8 * 8 = p + i / 8 * 8 := by omega
  have hqi : (q + i) / 8 * 8 = q + i / 8 * 8 := by omega
  have hmod : (q + i) % 8 = (p + i) % 8 := by omega
  unfold byte
  rw [hpi, hqi, hmod, hmem (i / 8 * 8) (by omega)]

/-- `realloc` of the block at `ptr` keeps what it has to keep: the data that fit, the whole block if it fails, and the
other blocks. -/
structure Keeps (s : Client) (ptr m n : Nat) : Prop where
  data : (s.heap.realloc ptr n).2 ≠ 0 →
    ∀ i < min m n, byte (s.heap.realloc ptr n).1 ((s.heap.realloc ptr n).2 + i) = byte s.heap (ptr + i)
  block : 0 < n → (s.heap.realloc ptr n).2 = 0 → (∃ v, (s.step (.realloc ptr n)).Sound v) ∧
    (s.step (.realloc ptr n)).live ptr = some m ∧ ∀ i < m,
      byte (s.heap.realloc ptr n).1 (ptr + i) = byte s.heap (ptr + i)
  others : ∀ q k, q ≠ ptr → s.live q = some k →
    ∀ i < k, byte (s.heap.realloc ptr n).1 (q + i) = byte s.heap (q + i)

theorem byte_same (hs : s.Sound v) (hq : s.live q = some k) (hne : q ≠ c + 32)
    (hsame : ∀ x, v.Used x → x ≠ c → s.heap.toArena.Same h'.toArena v' x) :
    ∀ i < k, byte h' (q + i) = byte s.heap (q + i) := by
  obtain ⟨x, hx, rfl, hk⟩ := hs.serves q k hq
  have h16 := hs.formed.tiled.aligned x hx.1.1
  have hdata := (hsame x hx fun heq => hne (by rw [heq])).2.2
  exact fun i hi => byte_congr (by omega) (by omega) (fun j hj => hdata _ (by omega) (by omega)) hi

theorem keeps_of_sound (hs : s.Sound v) (hh : s.heap.Held) (hlive : s.live ptr = some m)
    (hn : n + 47 < 2 ^ 64) : s.Keeps ptr m n := by
  obtain ⟨c, hc, rfl, hm⟩ := hs.serves ptr m hlive
  have hc16 := hs.formed.tiled.aligned c hc.1.1
  by_cases h0 : n = 0
  · subst h0
    have heq : s.heap.realloc (c + 32) 0 = (s.heap.free (c + 32), 0) :=
      (if_neg (Nat.succ_ne_zero _)).trans (if_pos rfl)
    obtain ⟨v', -, -, -, hsame, -⟩ := Heap.free_spec hs.formed hh hc
    refine ⟨fun hne => ?_, fun hlt => absurd hlt (Nat.lt_irrefl 0), fun q k hne hq => ?_⟩
    · rw [heq] at hne
      exact absurd rfl hne
    · rw [heq]
      exact byte_same hs hq hne hsame
  · obtain ⟨v', d, k, hl, -, hres⟩ := Heap.realloc_spec hs.formed hh hc h0 (by omega) (.inl hn)
    have hle := (Heap.alignSize_fits h0 hn).1
    have hd16 := hl.formed.tiled.aligned d hl.block.1.1
    refine ⟨fun hne i hi => ?_, fun _ hnull => ?_, fun q k hne hq => byte_same hs hq hne hl.same⟩
    · obtain ⟨hret, hk, -⟩ := hres.resolve_right fun hno => hne hno.1
      rw [hret]
      exact byte_congr (by omega) (by omega) hl.data (by omega)
    · obtain ⟨-, rfl, rfl, -⟩ := hres.resolve_left fun hok => by
        rw [hnull] at hok
        exact absurd hok.1 (by omega)
      have hfit : s.Fits (.realloc (d + 32) n) := (fits_realloc (Nat.succ_ne_zero _)).mpr (.inl hn)
      obtain ⟨w, hw, -, -⟩ := kept_realloc hs hh hc h0 hfit
      refine ⟨⟨w, hw⟩, ?_, fun i hi => byte_congr (by omega) (by omega) hl.data (by omega)⟩
      rw [step_of_null (.realloc (d + 32) n) hnull h0]
      exact hlive

/-- After every run of calls whose sizes do not wrap around, `realloc` of a live block keeps the data. -/
theorem libc_realloc_keeps (hl : Launched p) (hpage : p.Reaches (p.start + PAGE_SIZE)) (mem : Nat → Nat)
    (calls : List Call) (hv : Along step (fun s call => s.Valid call ∧ s.Fits call) (init mem p) calls) (ptr m n : Nat)
    (hlive : (calls.foldl step (init mem p)).live ptr = some m) (hn : n + 47 < 2 ^ 64) :
    (calls.foldl step (init mem p)).Keeps ptr m n := by
  have hinv : ∃ v, (calls.foldl step (init mem p)).Sound v ∧ (calls.foldl step (init mem p)).heap.Held := by
    refine Along.invariant (I := fun s => ∃ v, s.Sound v ∧ s.heap.Held) ?_
      (((init_sound hl mem).1 hpage).imp fun v hs => ⟨hs.1, hs.2.2⟩) hv
    rintro s call ⟨v, hs, hh⟩ ⟨hvalid, hfit⟩
    obtain ⟨v', hs', hh', -⟩ := kept_step hs hh hvalid hfit
    exact ⟨v', hs', hh'⟩
  obtain ⟨v, hs, hh⟩ := hinv
  exact keeps_of_sound hs hh hlive hn

theorem libc_realloc_moves :
    ([Call.malloc 100, .malloc 16].foldl step (init (fun _ => 0) roomy)).Keeps 0x400040 100 200 :=
  libc_realloc_keeps roomy_launched (by decide +kernel) (fun _ => 0) [.malloc 100, .malloc 16] (by decide +kernel)
    0x400040 100 200 (by decide +kernel) (by decide)

/-- A chunk of no bytes, given out for a size that wrapped around, shares its links with the header behind it. -/
def overlapping : List Call :=
  [.malloc (2 ^ 64 - 1), .malloc 16, .malloc 112, .malloc 16, .malloc 16, .free 0x400120, .free 0x400040]

/-- `realloc` then takes a chunk that is not its neighbour, and writes a header into another block. -/
theorem libc_realloc_overwrites :
    Along step (fun s call => s.Valid call ∧ call.Below (2 ^ 64)) (init (fun _ => 0) roomy) overlapping ∧
      (overlapping.foldl step (init (fun _ => 0) roomy)).live 0x400060 = some 16 ∧
      (overlapping.foldl step (init (fun _ => 0) roomy)).live 0x400090 = some 112 ∧
      ((overlapping.foldl step (init (fun _ => 0) roomy)).heap.realloc 0x400060 100).2 = 0x400060 ∧
      ¬(overlapping.foldl step (init (fun _ => 0) roomy)).Keeps 0x400060 16 100 := by
  have hlive : (overlapping.foldl step (init (fun _ => 0) roomy)).live 0x400090 = some 112 := by decide +kernel
  refine ⟨by decide +kernel, by decide +kernel, hlive, by decide +kernel, fun hk => ?_⟩
  have hbyte := hk.others 0x400090 112 (by decide) hlive 0x40 (by decide)
  exact absurd hbyte (by decide +kernel)

theorem byte_clear {p n : Nat} (hp : 8 ∣ p) (hi : i < n) :
    byte (h.withArena (clear h.toArena p n)) (p + i) = 0 := by
  have hw : (p + i) / 8 * 8 = p + i / 8 * 8 := by omega
  have hmod : (p + i) % 8 = i % 8 := by omega
  unfold byte
  rw [hw, hmod]
  show (if p + i / 8 * 8 < p ∨ p + n ≤ p + i / 8 * 8 then _ else _) / _ % 256 = 0
  rw [if_neg (by omega)]
  split_ifs with hfull
  · rw [Nat.zero_div]
  · obtain ⟨k, hk⟩ : ∃ k, p + n - (p + i / 8 * 8) = i % 8 + (k + 1) := ⟨n - i / 8 * 8 - i % 8 - 1, by omega⟩
    rw [hk, pow_add, pow_succ']
    generalize h.mem _ / _ = q
    rw [Nat.mul_left_comm, Nat.mul_div_cancel_left _ (Nat.pow_pos (by decide)), Nat.mul_left_comm, Nat.mul_mod_right]

/-- After every run of calls whose sizes do not wrap around, the bytes of a block from `calloc` are 0, and the live
blocks
keep theirs. -/
theorem libc_calloc_zeroed (hl : Launched p) (hpage : p.Reaches (p.start + PAGE_SIZE)) (mem : Nat → Nat)
    (calls : List Call) (hv : Along step (fun s call => s.Valid call ∧ s.Fits call) (init mem p) calls)
    (hend : calls.foldl step (init mem p) = s) (num size : Nat) (hn : num * size + 47 < 2 ^ 64) :
    ((s.heap.calloc num size).2 ≠ 0 →
      ∀ i < num * size, byte (s.heap.calloc num size).1 ((s.heap.calloc num size).2 + i) = 0) ∧
    ∀ q k, s.live q = some k → ∀ i < k, byte (s.heap.calloc num size).1 (q + i) = byte s.heap (q + i) := by
  obtain ⟨v, hs, hh⟩ : ∃ v, s.Sound v ∧ s.heap.Held := by
    refine hend ▸ hv.invariant (I := fun s => ∃ v, s.Sound v ∧ s.heap.Held) ?_
      (((init_sound hl mem).1 hpage).imp fun v hs => ⟨hs.1, hs.2.2⟩)
    rintro s call ⟨v, hs, hh⟩ ⟨hvalid, hfit⟩
    obtain ⟨v', hs', hh', -⟩ := kept_step hs hh hvalid hfit
    exact ⟨v', hs', hh'⟩
  have hmod : num * size % 2 ^ 64 = num * size := Nat.mod_eq_of_lt (by omega)
  unfold Heap.calloc
  by_cases h0 : num = 0 ∨ size = 0
  · simp [h0]
  simp only [if_neg h0, hmod]
  by_cases hob : s.heap.Obtains (num * size)
  · obtain ⟨h', v', c, heq, hg⟩ := Heap.malloc_gives hs.formed hh hob hn
    have hle := (Heap.alignSize_fits hob.1 hn).1
    have hsize := hg.size
    have hc16 := hg.formed.tiled.aligned c ((hg.used c).mpr (.inr rfl)).1.1
    have hsame := (hg.write (g := clear h'.toArena (c + 32) (num * size)) rfl fun w hw => if_pos (by omega)).same
    simp only [heq, if_neg (Nat.succ_ne_zero (c + 31))]
    refine ⟨fun _ i hi => byte_clear (by omega) hi, fun q k hq => ?_⟩
    obtain ⟨x, hx, rfl, -⟩ := hs.serves q k hq
    exact byte_same hs hq (fun hxc => hg.fresh ((Nat.add_right_cancel hxc : x = c) ▸ hx)) fun y hy _ => hsame y hy
  · obtain ⟨proc, heq, -⟩ := Heap.malloc_null hh hob
    simp only [heq, if_true]
    exact ⟨fun h => absurd rfl h, fun q k _ i _ => rfl⟩

theorem libc_calloc_zeroed_reused :
    let r := ([Call.malloc 100, .free 0x400040].foldl step (init (fun _ => 7) roomy)).heap.calloc 3 5
    r.2 = 0x400040 ∧ ∀ i < 3 * 5, byte r.1 (r.2 + i) = 0 :=
  ⟨by decide +kernel, (libc_calloc_zeroed roomy_launched (by decide +kernel) (fun _ => 7) [.malloc 100, .free 0x400040]
    (by decide +kernel) rfl 3 5 (by decide)).1 (by decide +kernel)⟩

end Client
end Novino.Libc
