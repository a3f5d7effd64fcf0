import Novino.Theorems.Glue
import Novino.Lib.Steps

/-! The kernel heap over whole runs of `kmalloc` and `kfree`. A growth that gets only some of its pages leaves the rear
    guard behind the end. -/

namespace Novino.Mem

open Steps

def Arena.Serves (h : Arena) (v : Tiling) (live : Nat → Option Nat) : Prop :=
  ∀ p n, live p = some n → ∃ c, v.Used c ∧ p = c + 32 ∧ n ≤ h.size c

namespace Arena

variable {h h' : Arena} {v v' : Tiling} {live : Nat → Option Nat} {c n s size : Nat}

theorem Serves.same (hs : h.Serves v live) (hsame : ∀ x, v.Used x → h.Same h' v' x) : h'.Serves v' live := by
  intro p n hp
  obtain ⟨c, hc, rfl, hn⟩ := hs p n hp
  exact ⟨c, (hsame c hc).1, rfl, hn.trans_eq (hsame c hc).2.1.symm⟩

theorem Serves.insert (hs : h.Serves v live) (hc : v.Used c) (hn : n ≤ h.size c) :
    h.Serves v (Function.update live (c + 32) (some n)) := by
  intro p m hp
  by_cases hpc : p = c + 32
  · subst hpc
    rw [Function.update_self, Option.some.injEq] at hp
    exact ⟨c, hc, rfl, hp ▸ hn⟩
  · rw [Function.update_of_ne hpc] at hp
    exact hs p m hp

theorem Serves.erase (hs : h.Serves v live) (hsame : ∀ x, v.Used x → x ≠ c → h.Same h' v' x) :
    h'.Serves v' (Function.update live (c + 32) none) := by
  intro p n hp
  by_cases hpc : p = c + 32
  · subst hpc
    simp at hp
  · rw [Function.update_of_ne hpc] at hp
    obtain ⟨x, hx, rfl, hn⟩ := hs p n hp
    have hxc : x ≠ c := fun heq => hpc (by rw [heq])
    exact ⟨x, (hsame x hx hxc).1, rfl, hn.trans_eq (hsame x hx hxc).2.1.symm⟩

theorem Tiled.findLoop (t : h.Tiled v) : ∀ (l r : List Nat) (k : Nat), v.free = r ++ l → l.length ≤ k →
    (h.findLoop size k (l.headD 0) = 0 ∧ ∀ c ∈ l, h.size c < size) ∨
      h.findLoop size k (l.headD 0) ∈ v.free ∧ size ≤ h.size (h.findLoop size k (l.headD 0))
  | [], _, k, _, _ => by
    refine .inl ⟨?_, fun c hc => absurd hc List.not_mem_nil⟩
    cases k <;> rfl
  | c :: l, r, k + 1, hl, hk => by
    have hc : c ∈ v.free := by
      rw [hl]
      exact List.mem_append_right _ List.mem_cons_self
    have h0 := t.ne_zero (t.inner c hc).1
    have hnext : h.nextFree c = l.headD 0 := by
      have hlist := t.list
      rw [hl] at hlist
      exact (hlist.mid h0).1
    rw [List.headD_cons, Arena.findLoop, if_neg h0]
    by_cases hsz : size ≤ h.size c
    · rw [if_pos hsz]
      exact .inr ⟨hc, hsz⟩
    · rw [if_neg hsz, hnext]
      rcases t.findLoop l (r ++ [c]) k (by rw [hl, List.append_assoc]; rfl) (by simpa using hk) with ⟨hz, hall⟩ | hfound
      · refine .inl ⟨hz, fun x hx => ?_⟩
        rcases List.mem_cons.mp hx with rfl | hx
        · omega
        · exact hall x hx
      · exact .inr hfound

theorem Tiled.length_free (t : h.Tiled v) : v.free.length ≤ 2 ^ 64 := by
  have hsub : v.free ⊆ List.range (2 ^ 64) := by
    intro c hc
    have := t.high c (t.inner c hc).1
    have := t.bound
    exact List.mem_range.mpr (by omega)
  exact (List.subperm_of_subset t.nodup hsub).length_le.trans_eq List.length_range

theorem Tiled.find (t : h.Tiled v) (size : Nat) :
    (h.findLoop size (2 ^ 64) h.freeList = 0 ∧ ∀ c ∈ v.free, h.size c < size) ∨
      h.findLoop size (2 ^ 64) h.freeList ∈ v.free ∧ size ≤ h.size (h.findLoop size (2 ^ 64) h.freeList) := by
  rw [t.head]
  exact t.findLoop v.free [] (2 ^ 64) rfl t.length_free

theorem Tiled.sub64_header (t : h.Tiled v) (hc : v.Used c) : sub64 (c + 32) HEAP_HEADER_SIZE = c := by
  have hhigh := t.high c hc.1.1
  have hbound := t.bound
  unfold sub64 HEAP_HEADER_SIZE
  omega

theorem setHeader_mem (h : Arena) (c a b n f w : Nat) : (h.setHeader c a b n f).mem w =
    if w = c + 24 then f else if w = c + 16 then n else if w = c + 8 then b else if w = c then a else h.mem w := by
  simp [setHeader, setSize, setNext, setPrev, setFree]

theorem setHeader_other {h : Arena} {c a b n f w : Nat} (hw : w < c ∨ c + 32 ≤ w) :
    (h.setHeader c a b n f).mem w = h.mem w := by
  rw [setHeader_mem, if_neg (by omega), if_neg (by omega), if_neg (by omega), if_neg (by omega)]

theorem setHeader_fields (h : Arena) (c a b n f : Nat) : (h.setHeader c a b n f).prev c = a ∧
    (h.setHeader c a b n f).next c = b ∧ (h.setHeader c a b n f).size c = n ∧ (h.setHeader c a b n f).isFree c = f := by
  simp [Arena.prev, Arena.next, Arena.size, Arena.isFree, setHeader_mem]

theorem guards_tiled {start z : Nat} (hf : h.freeList = 0) (hpos : 0 < start) (h16 : 16 ∣ start) (hz16 : 16 ∣ z)
    (hz : start + 80 ≤ z) (hb : z + 32 < 2 ^ 64) :
    (h.guards start (z + 32)).Tiled ⟨start, z, {start, start + 32, z}, [start + 32]⟩ := by
  have hsub : sub64 (sub64 z (start + 32)) 32 = z - start - 64 := by
    rw [sub64_eq (a := z) (by omega) (by omega), sub64_eq (by omega) (by omega)]
    omega
  obtain ⟨h1, hh1⟩ : ∃ h1, h.setHeader start 0 (start + 32) 0 0 = h1 := ⟨_, rfl⟩
  obtain ⟨h2, hh2⟩ : ∃ h2, h1.setHeader z (start + 32) 0 0 0 = h2 := ⟨_, rfl⟩
  obtain ⟨h3, hh3⟩ : ∃ h3, h2.setHeader (start + 32) start z (z - start - 64) 1 = h3 := ⟨_, rfl⟩
  have f1 := h.setHeader_fields start 0 (start + 32) 0 0
  have f2 := h1.setHeader_fields z (start + 32) 0 0 0
  have f3 := h2.setHeader_fields (start + 32) start z (z - start - 64) 1
  rw [hh1] at f1
  rw [hh2] at f2
  rw [hh3] at f3
  have hnext : h2.next start = start + 32 := by
    rw [← hh2]
    exact (setHeader_other (by omega)).trans f1.2.1
  have heq : h.guards start (z + 32) = h3.insertFreeChunk (start + 32) := by
    unfold guards HEAP_HEADER_SIZE
    simp only [Nat.add_sub_cancel, hh1, f1.2.1, hh2, hnext, hsub, hh3]
  have hlist : ∀ w, (h.guards start (z + 32)).mem w = if w = start + 64 then 0 else if w = start + 72 then 0
      else if w = start + 56 then 1 else h3.mem w := by
    intro w
    have hf3 : h3.freeList = 0 := by rw [← hh3, ← hh2, ← hh1]; exact hf
    rw [heq, insertFreeChunk_mem, if_neg fun hw => hw.1 hf3, hf3]
  have hrest : ∀ {w}, w < start + 56 ∨ z ≤ w → (h.guards start (z + 32)).mem w = h3.mem w := fun {w} hw => by
    rw [hlist, if_neg (by omega), if_neg (by omega), if_neg (by omega)]
  have hlast : ∀ {w}, z ≤ w → (h.guards start (z + 32)).mem w = h2.mem w := fun {w} hw => by
    rw [hrest (.inr hw), ← hh3, setHeader_other (by omega)]
  have hstart : ∀ {w}, w < start + 32 → (h.guards start (z + 32)).mem w = h1.mem w := fun {w} hw => by
    rw [hrest (by omega), ← hh3, setHeader_other (by omega), ← hh2, setHeader_other (by omega)]
  have hmem : ∀ {c}, c ∈ ({start, start + 32, z} : Finset Nat) ↔ c = start ∨ c = start + 32 ∨ c = z := by simp
  exact {
    pos := hpos
    lt := by simp only; omega
    bound := hb
    start_mem := by simp
    last_mem := by simp
    low := by
      intro c hc
      have := hmem.mp hc
      simp only
      omega
    high := by
      intro c hc
      have := hmem.mp hc
      simp only
      omega
    aligned := by
      intro c hc
      have := hmem.mp hc
      omega
    front := (hstart (by dsimp only; omega)).trans f1.1
    rear_next := (hlast (by dsimp only; omega)).trans f2.2.1
    rear_size := (hlast (by dsimp only; omega)).trans f2.2.2.1
    step := by
      intro a b hab
      have hlt := hab.lt
      have hbet := hab.between (x := start + 32) (by simp)
      have ha := hmem.mp hab.left
      have hb' := hmem.mp hab.right
      obtain ⟨rfl, rfl⟩ | ⟨rfl, rfl⟩ : a = start ∧ b = start + 32 ∨ a = start + 32 ∧ b = z := by omega
      · refine ⟨(hstart (by omega)).trans f1.2.1, (hrest (by omega)).trans f3.1, ?_⟩
        rw [show (h.guards a (z + 32)).size a = 0 from (hstart (by omega)).trans f1.2.2.1]
      · refine ⟨(hrest (by omega)).trans f3.2.1, (hlast (by omega)).trans f2.1, ?_⟩
        rw [show (h.guards start (b + 32)).size (start + 32) = b - start - 64 from (hrest (by omega)).trans f3.2.2.1]
        omega
    room := by
      rintro c ⟨hc, hs, hl⟩
      obtain rfl : c = start + 32 := by
        have := hmem.mp hc
        simp only at hs hl
        omega
      rw [show (h.guards start (z + 32)).size (start + 32) = z - start - 64 from (hrest (by omega)).trans f3.2.2.1]
      omega
    flag := by
      intro c hc
      rcases hmem.mp hc with rfl | rfl | rfl
      · rw [if_neg (by simp)]
        exact (hstart (by omega)).trans f1.2.2.2
      · rw [if_pos (by simp)]
        refine (hlist _).trans ?_
        rw [if_neg (by omega), if_neg (by omega), if_pos rfl]
      · rw [if_neg (by simp only [List.mem_singleton]; omega)]
        exact (hlast (by omega)).trans f2.2.2.2
    inner := by
      intro c hc
      obtain rfl := List.mem_singleton.mp hc
      exact ⟨by simp, by simp, by simp only; omega⟩
    nodup := List.nodup_singleton _
    list := by
      refine (Linking.nil : Linking h.nextFree h.prevFree []).push (by simp) (by simp) (by simp) ?_ ?_
      · refine (hlist _).trans ?_
        rw [if_neg (by omega), if_pos rfl]
        rfl
      · exact (hlist _).trans (if_pos rfl)
    head := by
      rw [heq]
      rfl }

section
variable (t : h.Tiled v) (t' : h.Tiled v') (hstart : v.start = v'.start)
include t t' hstart

theorem Tiled.chunks_subset : v.chunks ⊆ v'.chunks := by
  intro c
  induction c using Nat.strong_induction_on with
  | _ c ih =>
    intro hc
    by_cases hcs : c = v.start
    · rw [hcs, hstart]
      exact t'.start_mem
    obtain ⟨p, hp⟩ := t.exists_prev hc hcs
    have hp' := ih p hp.lt hp.left
    have hnext := (t.step p c hp).1
    have hpl : p ≠ v'.last := by
      rintro rfl
      exact t.ne_zero hc (hnext.symm.trans t'.rear_next)
    obtain ⟨y, hy⟩ := t'.exists_next hp' hpl
    rw [hnext.symm.trans (t'.step p y hy).1]
    exact hy.right

theorem Tiled.chunks_unique : v.chunks = v'.chunks :=
  (t.chunks_subset t' hstart).antisymm (t'.chunks_subset t hstart.symm)

theorem Tiled.last_unique : v.last = v'.last := by
  have hlast := t.chunks_subset t' hstart t.last_mem
  by_contra hne
  obtain ⟨y, hy⟩ := t'.exists_next hlast hne
  exact t'.ne_zero hy.right ((t'.step _ y hy).1.symm.trans t.rear_next)

theorem Tiled.coalesced_unique (hco : v'.Coalesced) : v.Coalesced := by
  have hfree : ∀ c ∈ v.chunks, c ∈ v.free → c ∈ v'.free := fun c hc hf =>
    (t'.isFree_ne_zero (t.chunks_subset t' hstart hc)).mp ((t.isFree_ne_zero hc).mpr hf)
  intro a b hab ha hb
  have hab' : Next v'.chunks a b := t.chunks_unique t' hstart ▸ hab
  exact hco a b hab' (hfree a hab.left ha) (hfree b hab.right hb)

end

end Arena

/-! ### Growing the heap -/

/-- How many of the next `k` requests for a page succeed before one fails. -/
def granted (pages : Nat → Bool) (asked : Nat) : Nat → Nat
  | 0 => 0
  | k + 1 => if pages asked then granted pages (asked + 1) k + 1 else 0

theorem granted_le (pages : Nat → Bool) (asked k : Nat) : granted pages asked k ≤ k := by
  induction k generalizing asked with
  | zero => exact le_rfl
  | succ k ih =>
    rw [granted]
    split
    · exact Nat.succ_le_succ (ih (asked + 1))
    · exact Nat.zero_le _

namespace Heap

variable {h : Heap} {size n : Nat} {v : Tiling} {c s g asked : Nat}

theorem sbrkLoop_eq (k : Nat) : ∀ (h : Heap) (size : Nat),
    ∃ asked, h.sbrkLoop k size = ({ h with asked := asked }, size + PAGE_SIZE * granted h.pages h.asked k) := by
  induction k with
  | zero => exact fun h size => ⟨h.asked, rfl⟩
  | succ k ih =>
    intro h size
    rw [sbrkLoop, granted]
    split
    · obtain ⟨asked, heq⟩ := ih { h with asked := h.asked + 1 } (size + PAGE_SIZE)
      refine ⟨asked, heq.trans ?_⟩
      rw [Nat.mul_add_one, Nat.add_assoc, Nat.add_comm PAGE_SIZE]
    · exact ⟨h.asked + 1, rfl⟩

/-- The pages that a growth by `size` bytes asks for: none when it would pass the end of the area of the heap. -/
def wanted (h : Heap) (size : Nat) : Nat :=
  if h.start + KHEAP_SIZE < h.fin + alignSize size HEAP_SBRK_SIZE then 0
  else alignSize size HEAP_SBRK_SIZE / PAGE_SIZE

def gotten (h : Heap) (size : Nat) : Nat := granted h.pages h.asked (h.wanted size)

structure Bounds (h : Heap) : Prop where
  start : h.start = KHEAP
  fin : h.fin = KHEAP + h.size
  size_le : h.size ≤ KHEAP_SIZE
  page : PAGE_SIZE ∣ h.size

def enlarge (h : Heap) (pages asked : Nat) : Heap :=
  { h with size := h.size + PAGE_SIZE * pages, fin := h.fin + PAGE_SIZE * pages, asked := asked }

theorem enlarge_toArena (h : Heap) (g asked : Nat) : (h.enlarge g asked).toArena = h.toArena := rfl

theorem enlarge_start (h : Heap) (g asked : Nat) : (h.enlarge g asked).start = h.start := rfl

theorem enlarge_fin (h : Heap) (g asked : Nat) : (h.enlarge g asked).fin = h.fin + PAGE_SIZE * g := rfl

theorem heapSbrk_eq (hb : h.Bounds) (hs : size < 2 ^ 63) : ∃ asked,
    h.heapSbrk size = (h.enlarge (h.gotten size) asked, PAGE_SIZE * h.gotten size) ∧
      h.size + PAGE_SIZE * h.gotten size ≤ KHEAP_SIZE := by
  obtain ⟨hstart, hfin, hle, hpage⟩ := hb
  have hal : alignSize size HEAP_SBRK_SIZE = (size + (HEAP_SBRK_SIZE - 1)) / HEAP_SBRK_SIZE * HEAP_SBRK_SIZE := by
    unfold alignSize HEAP_SBRK_SIZE
    omega
  have haddr : (h.start + h.size) % 2 ^ 64 = h.fin := by
    unfold KHEAP KHEAP_SIZE at *
    omega
  by_cases hlim : h.start + KHEAP_SIZE < h.fin + alignSize size HEAP_SBRK_SIZE
  · -- No page is asked for, also where the end of the new memory wraps around.
    have hzero : h.gotten size = 0 := by
      unfold gotten wanted
      rw [if_pos hlim, granted]
    have hnone : h.heapSbrk size = (h, 0) := by
      unfold heapSbrk
      simp only [haddr]
      by_cases hwrap : h.fin + alignSize size HEAP_SBRK_SIZE < 2 ^ 64
      · rw [Nat.mod_eq_of_lt hwrap, if_pos hlim]
      · have hpages : ((h.fin + alignSize size HEAP_SBRK_SIZE) % 2 ^ 64 - h.fin + (PAGE_SIZE - 1)) / PAGE_SIZE = 0 := by
          unfold KHEAP KHEAP_SIZE HEAP_SBRK_SIZE PAGE_SIZE at *
          omega
        rw [if_neg (by unfold KHEAP KHEAP_SIZE HEAP_SBRK_SIZE at *; omega), hpages]
        rfl
    refine ⟨h.asked, ?_, ?_⟩
    · rw [hnone, hzero]
      rfl
    · rw [hzero]
      exact hle
  · have hpages : ((h.fin + alignSize size HEAP_SBRK_SIZE) % 2 ^ 64 - h.fin + (PAGE_SIZE - 1)) / PAGE_SIZE =
        h.wanted size := by
      unfold wanted
      rw [if_neg hlim]
      unfold KHEAP KHEAP_SIZE HEAP_SBRK_SIZE PAGE_SIZE at *
      omega
    obtain ⟨asked, hloop⟩ := sbrkLoop_eq (h.wanted size) h 0
    have hgot := granted_le h.pages h.asked (h.wanted size)
    refine ⟨asked, ?_, ?_⟩
    · unfold heapSbrk
      simp only [haddr]
      rw [Nat.mod_eq_of_lt (by unfold KHEAP KHEAP_SIZE at *; omega)] at hpages ⊢
      rw [if_neg hlim, hpages, hloop, Nat.zero_add]
      rfl
    · unfold gotten
      unfold wanted at hgot ⊢
      rw [if_neg hlim] at hgot ⊢
      unfold KHEAP KHEAP_SIZE HEAP_SBRK_SIZE PAGE_SIZE at *
      omega

structure Formed (h : Heap) (v : Tiling) : Prop where
  tiled : h.toArena.Tiled v
  front : v.start = h.start
  rear : v.last + 32 = h.fin

theorem Formed.withArena {v' : Tiling} {g : Arena} (hf : h.Formed v) (t : g.Tiled v') (hstart : v'.start = v.start)
    (hlast : v'.last = v.last) : (h.withArena g).Formed v' :=
  ⟨t, hstart.trans hf.front, hlast.symm ▸ hf.rear⟩

/-- When the heap has to grow for `kmalloc`, it gets all the memory it needs or no page. -/
def Whole (h : Heap) (size : Nat) : Prop :=
  size = 0 ∨ h.findLoop (alignSize size HEAP_DATA_ALIGN) (2 ^ 64) h.freeList ≠ 0 ∨
    h.gotten (alignSize size HEAP_DATA_ALIGN + HEAP_HEADER_SIZE) = 0 ∨
    alignSize size HEAP_DATA_ALIGN + HEAP_HEADER_SIZE ≤
      PAGE_SIZE * h.gotten (alignSize size HEAP_DATA_ALIGN + HEAP_HEADER_SIZE)

instance (h : Heap) (size : Nat) : Decidable (h.Whole size) := inferInstanceAs (Decidable (_ ∨ _ ∨ _ ∨ _))

theorem alignSize_data (h0 : n ≠ 0) (hn : n < 2 ^ 62) : n ≤ alignSize n HEAP_DATA_ALIGN ∧
    16 ≤ alignSize n HEAP_DATA_ALIGN ∧ 16 ∣ alignSize n HEAP_DATA_ALIGN ∧
      alignSize n HEAP_DATA_ALIGN < 2 ^ 62 + 16 := by
  unfold alignSize HEAP_DATA_ALIGN
  omega

@[simp] theorem withArena_toArena (h : Heap) (a : Arena) : (h.withArena a).toArena = a := rfl

@[simp] theorem withArena_fin (h : Heap) (a : Arena) : (h.withArena a).fin = h.fin := rfl

/-- Of the heap `h`, `h'` has given out the chunk `c` with at least `n` bytes. -/
def Gives (h : Heap) (v : Tiling) (n : Nat) (h' : Heap) (c : Nat) : Prop :=
  ∃ v', h'.Formed v' ∧ v'.Used c ∧ n ≤ h'.toArena.size c ∧ (∀ x, v.Used x → h.toArena.Same h'.toArena v' x) ∧
    (v.Coalesced → v'.Coalesced)

theorem gives_take (hf : h.Formed v) (hc : c ∈ v.free) (hs : 16 ≤ s) (hs16 : 16 ∣ s)
    (hsc : s ≤ h.toArena.size c) (hns : n ≤ s) :
    h.Gives v n (h.withArena ((h.splitChunk c s).removeFreeChunk c)) c := by
  rw [hf.tiled.splitChunk_eq (hf.tiled.inner c hc) hsc]
  obtain ⟨v', t', hstart, hlast, hused, hsame, hsize, hco⟩ := hf.tiled.take hc hs hs16 hsc rfl
  refine ⟨v', hf.withArena t' hstart hlast, (hused c).mpr (.inr rfl), ?_, ?_, hco⟩ <;> rw [withArena_toArena]
  · exact hns.trans hsize
  · exact hsame

theorem expand_enough (hf : h.Formed v) (hb : h.Bounds) (hs : s < 2 ^ 62 + 16)
    (heq : h.heapSbrk (s + 32) = (h.enlarge g asked, PAGE_SIZE * g)) (hle : h.size + PAGE_SIZE * g ≤ KHEAP_SIZE)
    (henough : s + 32 ≤ PAGE_SIZE * g) (hs16 : 16 ≤ s) :
    ∃ v', (h.heapExpand s).1.Formed v' ∧ h.toArena.Reshaped v (h.heapExpand s).1.toArena v' ∧
      (h.heapExpand s).2 ∈ v'.free ∧ s ≤ (h.heapExpand s).1.toArena.size (h.heapExpand s).2 ∧
      (v.Coalesced → v'.Coalesced) := by
  obtain ⟨hstart, hfin, -, hpage⟩ := hb
  have hrear := hf.rear
  have h16 := hf.tiled.aligned _ hf.tiled.last_mem
  have hadd : (s + HEAP_HEADER_SIZE) % 2 ^ 64 = s + 32 := by
    unfold HEAP_HEADER_SIZE
    omega
  have hold : h.fin - HEAP_HEADER_SIZE = v.last := by
    unfold HEAP_HEADER_SIZE
    omega
  have hnew : (h.enlarge g asked).fin - HEAP_HEADER_SIZE = v.last + PAGE_SIZE * g := by
    unfold HEAP_HEADER_SIZE enlarge
    simp only
    omega
  have hexp : h.heapExpand s = ((h.enlarge g asked).withArena
      (h.toArena.moveGuard Arena.glueNext v.last (v.last + PAGE_SIZE * g)).1,
      (h.toArena.moveGuard Arena.glueNext v.last (v.last + PAGE_SIZE * g)).2) := by
    unfold heapExpand
    simp only [hadd, hold, heq, hnew, if_neg (not_lt.mpr henough), enlarge_toArena]
  obtain ⟨v', r, hlast, hmem, hsize, hco⟩ := hf.tiled.moveGuard (n := v.last + PAGE_SIZE * g)
    (by omega) (by unfold PAGE_SIZE; omega) (by unfold KHEAP KHEAP_SIZE at *; omega) fun g w c _ _ => rfl
  rw [hexp]
  refine ⟨v', ⟨r.tiled, r.start.trans hf.front, ?_⟩, r, hmem, le_trans (by omega) hsize, hco⟩
  rw [withArena_fin, hlast, enlarge_fin]
  omega

theorem expand_few (hs : s < 2 ^ 62 + 16)
    (heq : h.heapSbrk (s + 32) = (h.enlarge g asked, PAGE_SIZE * g)) (hfew : PAGE_SIZE * g < s + 32) :
    h.heapExpand s = (h.enlarge g asked, 0) := by
  have hadd : (s + HEAP_HEADER_SIZE) % 2 ^ 64 = s + 32 := by
    unfold HEAP_HEADER_SIZE
    omega
  unfold heapExpand
  simp only [hadd, heq, if_pos hfew]

theorem kmalloc_found (h0 : n ≠ 0) (hc : c ≠ 0)
    (hfind : h.findLoop (alignSize n HEAP_DATA_ALIGN) (2 ^ 64) h.freeList = c) : h.kmalloc n =
      (h.withArena ((h.splitChunk c (alignSize n HEAP_DATA_ALIGN)).removeFreeChunk c), c + 32) := by
  have hff : h.findFreeChunk (alignSize n HEAP_DATA_ALIGN) = (h, c) := by
    unfold findFreeChunk
    simp only [hfind, if_pos hc]
  unfold kmalloc
  simp only [if_neg h0, hff, if_neg hc, HEAP_HEADER_SIZE]

theorem kmalloc_expand {e : Heap × Nat} (h0 : n ≠ 0)
    (hfind : h.findLoop (alignSize n HEAP_DATA_ALIGN) (2 ^ 64) h.freeList = 0)
    (he : h.heapExpand (alignSize n HEAP_DATA_ALIGN) = e) : h.kmalloc n = if e.2 = 0 then (e.1, 0) else
      (e.1.withArena ((e.1.splitChunk e.2 (alignSize n HEAP_DATA_ALIGN)).removeFreeChunk e.2), e.2 + 32) := by
  have hff : h.findFreeChunk (alignSize n HEAP_DATA_ALIGN) = e := by
    unfold findFreeChunk
    simp only [hfind, ne_eq, not_true_eq_false, if_false, he]
  unfold kmalloc
  simp only [if_neg h0, hff, HEAP_HEADER_SIZE]

theorem few_iff {f : Nat} (hfew : PAGE_SIZE * g < s) : g = 0 ∨ s ≤ PAGE_SIZE * g ↔ f + PAGE_SIZE * g = f := by
  unfold PAGE_SIZE at *
  omega

theorem whole_iff (h0 : n ≠ 0) (hfind : h.findLoop (alignSize n HEAP_DATA_ALIGN) (2 ^ 64) h.freeList = 0) :
    h.Whole n ↔ h.gotten (alignSize n HEAP_DATA_ALIGN + 32) = 0 ∨
      alignSize n HEAP_DATA_ALIGN + 32 ≤ PAGE_SIZE * h.gotten (alignSize n HEAP_DATA_ALIGN + 32) := by
  unfold Whole HEAP_HEADER_SIZE
  simp only [h0, hfind, ne_eq, not_true_eq_false, false_or]

theorem kmalloc_gives_found (hf : h.Formed v) (h0 : n ≠ 0) (hn : n < 2 ^ 62)
    (hfind : h.findLoop (alignSize n HEAP_DATA_ALIGN) (2 ^ 64) h.freeList ≠ 0) :
    ∃ h' c, h.kmalloc n = (h', c + 32) ∧ h.Gives v n h' c := by
  obtain ⟨hns, hs, hs16, -⟩ := alignSize_data h0 hn
  have hfound := hf.tiled.find (alignSize n HEAP_DATA_ALIGN)
  have hk := fun c => kmalloc_found (h := h) (n := n) (c := c) h0
  generalize h.findLoop (alignSize n HEAP_DATA_ALIGN) (2 ^ 64) h.freeList = c at hfind hfound hk
  obtain ⟨hmem, hsz⟩ := hfound.resolve_left fun hz => hfind hz.1
  exact ⟨_, c, hk c hfind rfl, gives_take hf hmem hs hs16 hsz hns⟩

section
variable {v : Tiling} {g asked : Nat} (h0 : n ≠ 0) (hn : n < 2 ^ 62)
  (hfind : h.findLoop (alignSize n HEAP_DATA_ALIGN) (2 ^ 64) h.freeList = 0)
  (heq : h.heapSbrk (alignSize n HEAP_DATA_ALIGN + 32) = (h.enlarge g asked, PAGE_SIZE * g))
include h0 hn hfind heq

theorem kmalloc_gives_expand (hf : h.Formed v) (hb : h.Bounds) (hle : h.size + PAGE_SIZE * g ≤ KHEAP_SIZE)
    (henough : alignSize n HEAP_DATA_ALIGN + 32 ≤ PAGE_SIZE * g) :
    ∃ h' c, h.kmalloc n = (h', c + 32) ∧ h.Gives v n h' c := by
  obtain ⟨hns, hs, hs16, hslt⟩ := alignSize_data h0 hn
  obtain ⟨v1, hf1, r, hmem, hsz, hco1⟩ := expand_enough hf hb hslt heq hle henough hs
  have hk := kmalloc_expand (h := h) h0 hfind rfl
  generalize h.heapExpand (alignSize n HEAP_DATA_ALIGN) = e at hf1 r hmem hsz hk
  rw [if_neg (hf1.tiled.ne_zero (hf1.tiled.inner e.2 hmem).1)] at hk
  obtain ⟨v', hf', hu, hsize, hsame, hco⟩ := gives_take hf1 hmem hs hs16 hsz hns
  refine ⟨_, e.2, hk, v', hf', hu, hsize, fun x hx => ?_, fun hc => hco (hco1 hc)⟩
  exact (r.same x hx).trans (hsame x ((r.used x).mpr hx))

theorem kmalloc_few (hfew : PAGE_SIZE * g < alignSize n HEAP_DATA_ALIGN + 32) :
    h.kmalloc n = (h.enlarge g asked, 0) := by
  obtain ⟨-, -, -, hslt⟩ := alignSize_data h0 hn
  have hk := kmalloc_expand h0 hfind (expand_few hslt heq hfew)
  rwa [if_pos rfl] at hk

end

theorem kmalloc_spec (hf : h.Formed v) (hb : h.Bounds) (hn : n < 2 ^ 62) :
    (h.Whole n ∧ ∃ h' c, h.kmalloc n = (h', c + 32) ∧ h.Gives v n h' c) ∨
    ∃ h', h.kmalloc n = (h', 0) ∧ h'.toArena = h.toArena ∧ h'.start = h.start ∧ (h.Whole n ↔ h'.fin = h.fin) := by
  by_cases h0 : n = 0
  · exact .inr ⟨h, if_pos h0, rfl, rfl, iff_of_true (.inl h0) rfl⟩
  obtain ⟨-, -, -, hslt⟩ := alignSize_data h0 hn
  have hmore : alignSize n HEAP_DATA_ALIGN + 32 < 2 ^ 63 := by omega
  obtain ⟨asked, heq, hle⟩ := heapSbrk_eq hb hmore
  by_cases hfind : h.findLoop (alignSize n HEAP_DATA_ALIGN) (2 ^ 64) h.freeList = 0
  · have hwhole := whole_iff h0 hfind
    rcases lt_or_ge (PAGE_SIZE * h.gotten (alignSize n HEAP_DATA_ALIGN + 32)) (alignSize n HEAP_DATA_ALIGN + 32)
      with hfew | henough
    · refine .inr ⟨_, kmalloc_few h0 hn hfind heq hfew, h.enlarge_toArena .., h.enlarge_start .., hwhole.trans ?_⟩
      rw [enlarge_fin]
      exact few_iff hfew
    · exact .inl ⟨hwhole.mpr (.inr henough), kmalloc_gives_expand h0 hn hfind heq hf hb hle henough⟩
  · exact .inl ⟨.inr (.inl hfind), kmalloc_gives_found hf h0 hn hfind⟩

theorem kfree_eq (hf : h.Formed v) (hc : v.Used c) : h.kfree (c + 32) =
    h.withArena (((h.insertFreeChunk c).glueBack c).1.glueNext ((h.insertFreeChunk c).glueBack c).2) := by
  have hlow := hf.tiled.low c hc.1.1
  have hhigh := hf.tiled.high c hc.1.1
  have hfront := hf.front
  have hrear := hf.rear
  unfold kfree
  simp only [if_neg (show ¬c + 32 < h.start by omega), if_neg (show ¬h.fin < c + 32 by omega),
    hf.tiled.sub64_header hc]

theorem kfree_spec (hf : h.Formed v) (hc : v.Used c) : ∃ v', (h.kfree (c + 32)).Formed v' ∧
    (∀ x, v.Used x → x ≠ c → h.toArena.Same (h.kfree (c + 32)).toArena v' x) ∧ (v.Coalesced → v'.Coalesced) := by
  obtain ⟨v', t', hstart, hlast, -, hsame, hco⟩ := hf.tiled.release hc rfl
  rw [kfree_eq hf hc]
  exact ⟨v', hf.withArena t' hstart hlast, hsame, hco⟩

section
variable (hb : h.Bounds)
include hb

theorem Bounds.withArena (a : Arena) : (h.withArena a).Bounds := ⟨hb.start, hb.fin, hb.size_le, hb.page⟩

theorem Bounds.enlarge {g : Nat} (asked : Nat) (hle : h.size + PAGE_SIZE * g ≤ KHEAP_SIZE) :
    (h.enlarge g asked).Bounds where
  start := hb.start
  fin := by
    rw [enlarge_fin, hb.fin]
    exact Nat.add_assoc ..
  size_le := hle
  page := Nat.dvd_add hb.page (Nat.dvd_mul_right ..)

theorem Bounds.heapExpand {s : Nat} (hs : s < 2 ^ 62 + 16) : (h.heapExpand s).1.Bounds := by
  have hmore : s + 32 < 2 ^ 63 := by omega
  obtain ⟨asked, heq, hle⟩ := heapSbrk_eq hb hmore
  have hadd : (s + HEAP_HEADER_SIZE) % 2 ^ 64 = s + 32 := by
    unfold HEAP_HEADER_SIZE
    omega
  have hbig := hb.enlarge asked hle
  unfold Heap.heapExpand
  simp only [hadd, heq]
  split
  · exact hbig
  · exact hbig.withArena _

theorem Bounds.kmalloc (hn : n < 2 ^ 62) : (h.kmalloc n).1.Bounds := by
  by_cases h0 : n = 0
  · rw [show h.kmalloc n = (h, 0) from if_pos h0]
    exact hb
  obtain ⟨-, -, -, hslt⟩ := alignSize_data h0 hn
  have hfree : (h.findFreeChunk (alignSize n HEAP_DATA_ALIGN)).1.Bounds := by
    unfold findFreeChunk
    simp only
    split
    · exact hb
    · exact hb.heapExpand hslt
  unfold Heap.kmalloc
  simp only [if_neg h0]
  split
  · exact hfree
  · exact hfree.withArena _

theorem Bounds.kfree (p : Nat) : (h.kfree p).Bounds := by
  unfold Heap.kfree
  simp only
  split
  · exact hb
  split
  · exact hb
  · exact hb.withArena _

end

end Heap

namespace Kernel

variable {s : Kernel} {v : Tiling} {op : HeapOp}

/-- The chunks tile the heap, free neighbours are joined, and the live blocks are chunks of their own that are large
    enough. -/
structure WellFormed (s : Kernel) (v : Tiling) : Prop where
  formed : s.heap.Formed v
  coalesced : v.Coalesced
  serves : s.heap.toArena.Serves v s.live
  aligned : ∀ p n, s.live p = some n → 16 ∣ p
  disjoint : ∀ p q n m, s.live p = some n → s.live q = some m → p ≠ q → p + n ≤ q ∨ q + m ≤ p

theorem WellFormed.of_serves (hf : s.heap.Formed v) (hco : v.Coalesced) (hs : s.heap.toArena.Serves v s.live) :
    s.WellFormed v := by
  refine ⟨hf, hco, hs, fun p n hp => ?_, fun p q n m hp hq hne => ?_⟩
  · obtain ⟨c, hc, rfl, -⟩ := hs p n hp
    have := hf.tiled.aligned c hc.1.1
    omega
  · obtain ⟨c, hc, rfl, hn⟩ := hs p n hp
    obtain ⟨d, hd, rfl, hm⟩ := hs q m hq
    have := hf.tiled.region hc.1.1 hd.1.1
    omega

/-- Sizes are below 2 ^ 62, and only live pointers are freed. -/
def Valid (s : Kernel) : HeapOp → Prop
  | .kmalloc size => size < 2 ^ 62
  | .kfree ptr => ∃ n, s.live ptr = some n

def Whole (s : Kernel) : HeapOp → Prop
  | .kmalloc size => s.heap.Whole size
  | .kfree _ => True

theorem bounds_step (hb : s.heap.Bounds) (hv : s.Valid op) : (s.step op).heap.Bounds := by
  cases op with
  | kmalloc size => exact hb.kmalloc hv
  | kfree ptr => exact hb.kfree ptr

theorem wellFormed_step (hw : ∃ v, s.WellFormed v) (hv : s.Valid op) (hb : s.heap.Bounds) :
    (∃ v, (s.step op).WellFormed v) ↔ s.Whole op := by
  obtain ⟨v, hf, hco, hs, -, -⟩ := hw
  cases op with
  | kmalloc n =>
    unfold step Whole
    rcases Heap.kmalloc_spec hf hb hv with ⟨hwhole, h', c, hk, v', hf', hu, hn, hsame, hco'⟩ | ⟨h', hk, ha, hst, hiff⟩
    · refine iff_of_true ⟨v', ?_⟩ hwhole
      simp only [hk, if_neg (Nat.succ_ne_zero (c + 31))]
      exact .of_serves hf' (hco' hco) ((hs.same hsame).insert hu hn)
    · simp only [hk, if_true]
      rw [hiff]
      constructor
      · rintro ⟨w, hfw, -, -, -, -⟩
        have ht := hfw.tiled
        rw [ha] at ht
        have hfront := hfw.front
        rw [hst] at hfront
        have := hf.tiled.last_unique ht (hf.front.trans hfront.symm)
        rw [← hfw.rear, ← hf.rear, this]
      · intro hfin
        refine ⟨v, .of_serves ⟨?_, ?_, ?_⟩ hco ?_⟩
        · rw [ha]
          exact hf.tiled
        · rw [hst]
          exact hf.front
        · rw [hfin]
          exact hf.rear
        · rw [ha]
          exact hs
  | kfree p =>
    refine iff_of_true ?_ trivial
    obtain ⟨n, hp⟩ := hv
    obtain ⟨c, hc, rfl, -⟩ := hs p n hp
    obtain ⟨v', hf', hsame, hco'⟩ := Heap.kfree_spec hf hc
    exact ⟨v', .of_serves hf' (hco' hco) (hs.erase hsame)⟩

section
variable (mem : Nat → Nat) (pages : Nat → Bool)
include mem pages

theorem empty_bounds : (Heap.empty mem pages).Bounds :=
  ⟨rfl, rfl, Nat.zero_le _, Nat.dvd_zero _⟩

theorem init_eq : ∃ asked, Heap.init mem pages = ((Heap.empty mem pages).enlarge (granted pages 0 256) asked).withArena
      (Arena.guards ⟨mem, 0⟩ KHEAP (KHEAP + PAGE_SIZE * granted pages 0 256)) := by
  obtain ⟨asked, heq, -⟩ := Heap.heapSbrk_eq (empty_bounds mem pages) (by omega : 1 < 2 ^ 63)
  have hwant : (Heap.empty mem pages).wanted 1 = 256 := by
    change (if KHEAP + KHEAP_SIZE < KHEAP + alignSize 1 HEAP_SBRK_SIZE then 0
      else alignSize 1 HEAP_SBRK_SIZE / PAGE_SIZE) = 256
    decide
  have hgot : (Heap.empty mem pages).gotten 1 = granted pages 0 256 := by
    unfold Heap.gotten
    rw [hwant]
    rfl
  rw [hgot] at heq
  refine ⟨asked, ?_⟩
  unfold Heap.init
  rw [heq]
  rfl

theorem init_bounds : (init mem pages).heap.Bounds := by
  obtain ⟨asked, heq⟩ := init_eq mem pages
  have hle := granted_le pages 0 256
  change (Heap.init mem pages).Bounds
  rw [heq]
  refine ((empty_bounds mem pages).enlarge asked ?_).withArena _
  change 0 + PAGE_SIZE * granted pages 0 256 ≤ KHEAP_SIZE
  unfold PAGE_SIZE KHEAP_SIZE
  omega

theorem init_wellFormed : (∃ v, (init mem pages).WellFormed v) ↔ 0 < granted pages 0 256 := by
  obtain ⟨asked, heq⟩ := init_eq mem pages
  have hle := granted_le pages 0 256
  have hfin : (init mem pages).heap.fin = KHEAP + PAGE_SIZE * granted pages 0 256 := congrArg Heap.fin heq
  have hstart : (init mem pages).heap.start = KHEAP := congrArg Heap.start heq
  have harena : (init mem pages).heap.toArena =
      Arena.guards ⟨mem, 0⟩ KHEAP (KHEAP + PAGE_SIZE * granted pages 0 256) := congrArg Heap.toArena heq
  generalize granted pages 0 256 = g at *
  constructor
  · rintro ⟨v, hf, -⟩
    have hrear := hf.rear
    have hfront := hf.front
    have hlt := hf.tiled.lt
    rw [hfin] at hrear
    rw [hstart] at hfront
    unfold PAGE_SIZE at *
    omega
  · intro hg
    have hz : KHEAP + PAGE_SIZE * g = KHEAP + (PAGE_SIZE * g - 32) + 32 := by
      unfold PAGE_SIZE
      omega
    have ht := Arena.guards_tiled (h := ⟨mem, 0⟩) (z := KHEAP + (PAGE_SIZE * g - 32)) rfl
      (by decide : 0 < KHEAP) (by decide) (by unfold KHEAP PAGE_SIZE; omega) (by unfold PAGE_SIZE; omega)
      (by unfold KHEAP PAGE_SIZE; omega)
    rw [← hz, ← harena] at ht
    refine ⟨_, .of_serves ⟨ht, hstart.symm, ?_⟩ ?_ fun p n hp => ?_⟩
    · rw [hfin, hz]
    · intro a b hab ha hb
      rw [List.mem_singleton] at ha hb
      exact hab.lt.ne (ha.trans hb.symm)
    · exact absurd hp (by simp [init])

end

/-- The heap is well formed through a whole run of calls exactly if `heap_init` gets a page and no growth of the heap
stops half way. -/
theorem kernel_heap_iff (mem : Nat → Nat) (pages : Nat → Bool) (ops : List HeapOp)
    (hv : Along step Valid (init mem pages) ops) :
    ((∃ v, (init mem pages).WellFormed v) ∧
      Along step (fun s op => ∃ v, (s.step op).WellFormed v) (init mem pages) ops) ↔
    0 < granted pages 0 256 ∧ Along step Whole (init mem pages) ops := by
  have hvb : Along step (fun s op => s.Valid op ∧ s.heap.Bounds) (init mem pages) ops :=
    Along.imp (I := fun s => s.heap.Bounds) (fun s op hb hvalid => bounds_step hb hvalid)
      (fun s op hb hvalid => ⟨hvalid, hb⟩) (init_bounds mem pages) hv
  rw [init_wellFormed]
  refine and_congr_right fun hg => ?_
  exact Along.invariant_iff (I := fun s => ∃ v, WellFormed s v) (fun s op hw hP => wellFormed_step hw hP.1 hP.2)
    ((init_wellFormed mem pages).mpr hg) hvb

theorem kernel_heap_alloc_free :
    (∃ v, (init (fun _ => 0) fun _ => true).WellFormed v) ∧
      Along step (fun s op => ∃ v, (s.step op).WellFormed v) (init (fun _ => 0) fun _ => true)
        [.kmalloc 100, .kfree (KHEAP + 64)] :=
  (kernel_heap_iff (fun _ => 0) (fun _ => true) [.kmalloc 100, .kfree (KHEAP + 64)]
    ⟨by unfold Valid; omega, ⟨100, by decide +kernel⟩, trivial⟩).mpr
    ⟨by decide +kernel, .inr (.inl (by decide +kernel)), trivial, trivial⟩

/-- A growth by 3 MiB gets one page: the rear guard is no longer at the end of the heap. -/
theorem rear_guard_left_behind :
    (init (fun _ => 0) (decide <| · < 257)).Valid (.kmalloc 0x200000) ∧
      ¬∃ v, ((init (fun _ => 0) (decide <| · < 257)).step (.kmalloc 0x200000)).WellFormed v := by
  have hvalid : (init (fun _ => 0) (decide <| · < 257)).Valid (.kmalloc 0x200000) := by
    unfold Valid
    omega
  have hstart : ∃ v, (init (fun _ => 0) (decide <| · < 257)).WellFormed v :=
    (init_wellFormed _ _).mpr (by decide +kernel)
  refine ⟨hvalid, fun hw => ?_⟩
  have hwhole : ¬(init (fun _ => 0) (decide <| · < 257)).heap.Whole 0x200000 := by decide +kernel
  exact hwhole ((wellFormed_step hstart hvalid (init_bounds _ _)).mp hw)

end Kernel
end Novino.Mem
