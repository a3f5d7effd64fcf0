import Mathlib.Algebra.Ring.Int.Defs
import Novino.Lib.Pieces
import Novino.Theorems.Headers

/-! Putting fragments together: a datagram is taken for complete when the sizes of its parts add up to its size. -/

namespace Novino.Net

open Steps

/-! ### The sum of sizes -/

theorem wrap32_add (a b : Int) : wrap32 (wrap32 a + b) = wrap32 (a + b) := by
  unfold wrap32
  omega

theorem wrap32_lt (a : Int) : wrap32 a < 4294967296 := by
  unfold wrap32
  omega

def Frame.piece (f : Frame) : Piece := ⟨8 * offset f.l3, f.l4Size.toNat⟩

def Fragment.pieces (item : Fragment) : List Piece := item.frames.map Frame.piece

structure Fragment.Tallied (item : Fragment) : Prop where
  tally : item.tally = wrap32 (item.frames.map (·.l4Size)).sum
  total : item.total < 4294967296

theorem Fragment.Tallied.add {item : Fragment} {f : Frame} (h : item.Tallied) : (item.add f).Tallied := by
  refine ⟨?_, ?_⟩
  · show wrap32 (item.tally + f.l4Size) = wrap32 ((item.frames ++ [f]).map (·.l4Size)).sum
    rw [h.tally, wrap32_add, List.map_append, List.sum_append]
    simp only [List.map_cons, List.map_nil, List.sum_cons, List.sum_nil, Int.add_zero]
  · unfold Fragment.add
    simp only
    split
    · exact wrap32_lt _
    · exact h.total

theorem sum_l4Size {frames : List Frame} (h : ∀ f ∈ frames, 0 ≤ f.l4Size) :
    (frames.map (·.l4Size)).sum = (Piece.total (frames.map Frame.piece) : Int) := by
  unfold Piece.total
  induction frames with
  | nil => rfl
  | cons f frames ih =>
    obtain ⟨hf, hrest⟩ := List.forall_mem_cons.mp h
    simp only [List.map_cons, List.sum_cons, ih hrest, Frame.piece]
    omega

structure Fragment.Covered (item : Fragment) : Prop where
  sizes : ∀ f ∈ item.frames, 0 ≤ f.l4Size
  inside : Piece.Inside item.pieces item.total
  covers : Piece.Covers item.pieces item.total

/-- No part has a negative size or ends behind the end that the last part gives, and no two parts overlap. -/
structure Fragment.Plain (item : Fragment) : Prop where
  sizes : ∀ f ∈ item.frames, 0 ≤ f.l4Size
  inside : Piece.Inside item.pieces item.total
  apart : item.pieces.Pairwise Piece.Apart

variable {item : Fragment}

theorem Fragment.Tallied.tally_eq (h : item.Tallied) (hsizes : ∀ f ∈ item.frames, 0 ≤ f.l4Size) :
    item.tally = Piece.total item.pieces % 4294967296 := by
  rw [h.tally, sum_l4Size hsizes]
  unfold wrap32 Fragment.pieces
  omega

theorem Fragment.Covered.plain (h : item.Covered) (ht : item.Tallied) (hdone : item.tally = item.total)
    (hsmall : Piece.total item.pieces < 4294967296) : item.Plain := by
  have hsum : Piece.total item.pieces = item.total := by
    rw [← hdone, ht.tally_eq h.sizes, Nat.mod_eq_of_lt hsmall]
  exact ⟨h.sizes, h.inside, (Piece.covers_iff_apart h.inside hsum).mp h.covers⟩

namespace Stack

variable {s s' : Stack} {heap : Want → Bool} {f : Frame} {e : Event}

/-! ### What a step does to the datagrams -/

def assembles (s : Stack) : Event → Option Fragment
  | .recv .. => none
  | .work heap => s.queue.head?.bind fun f =>
    if f.type = 0x0800 ∧ ipv4Checksum f.l3 f.headerSize = 0 ∧ f.toL4.Fragmented ∧ s.Opens heap f.toL4 then
      s.completed f.toL4
    else none

theorem arpRecv_fragments (dev : Netdev) : (s.arpRecv heap dev f).fragments = s.fragments := by
  by_cases h : f.l3.rd16 0 = ARP_HTYPE_ETHERNET ∧ f.l3.rd16 2 = ARP_PTYPE_IPV4
  · obtain ⟨s₁, f', hquiet, -, heq⟩ := arpRecv_eq (s := s) heap dev h
    rw [heq]
    exact hquiet.fragments
  · rw [arpRecv_other dev h]

variable (heap) in
theorem ipv4Recv_fragments : (s.ipv4Recv heap f).fragments = s.fragments ∨
    (s.ipv4Recv heap f).fragments = s.grown f.toL4 ∨
    ∃ key, (s.ipv4Recv heap f).fragments = (s.grown f.toL4).eraseP (·.key = key) := by
  by_cases hsum : ipv4Checksum f.l3 f.headerSize = 0
  · by_cases hf : f.toL4.Fragmented
    · by_cases ho : s.Opens heap f.toL4
      · cases hc : s.completed f.toL4 with
        | none =>
          rw [ipv4Recv_part hsum hf ho hc]
          exact .inr (.inl rfl)
        | some item =>
          rw [ipv4Recv_last hsum hf ho hc]
          simp only
          split
          · exact .inr (.inr ⟨item.key, (handUp_keeps heap _).fragments⟩)
          · exact .inr (.inl rfl)
      · rw [ipv4Recv_closed hsum hf ho]
        exact .inl rfl
    · obtain ⟨f', -, heq⟩ := ipv4Recv_whole (s := s) heap hsum hf
      rw [heq]
      exact .inl (handUp_keeps heap _).fragments
  · rw [ipv4Recv_bad hsum]
    exact .inl rfl

def Tallied (s : Stack) : Prop := ∀ item ∈ s.fragments, item.Tallied

theorem tallied_grown (h : s.Tallied) : ∀ item ∈ s.grown f, item.Tallied := by
  have hopened : ∀ item ∈ s.opened f, item.Tallied := by
    unfold opened
    split
    · exact h
    · exact List.forall_mem_cons.mpr ⟨⟨rfl, show 0 < 4294967296 by decide⟩, h⟩
  have hchange : ∀ (key : Key) (fragments : List Fragment), (∀ item ∈ fragments, item.Tallied) →
      ∀ item ∈ change key (·.add f) fragments, item.Tallied := by
    intro key fragments
    induction fragments with
    | nil => exact fun h => h
    | cons first fragments ih =>
      intro h
      obtain ⟨hfirst, hrest⟩ := List.forall_mem_cons.mp h
      rw [change]
      split
      · exact List.forall_mem_cons.mpr ⟨hfirst.add, hrest⟩
      · exact List.forall_mem_cons.mpr ⟨hfirst, ih hrest⟩
  exact hchange f.key _ hopened

theorem Tallied.handle (h : s.Tallied) : (s.handle heap f).Tallied := by
  unfold Stack.handle
  split
  · unfold Tallied
    rw [arpRecv_fragments]
    exact h
  · split
    · unfold Tallied
      rcases ipv4Recv_fragments (s := s) heap (f := f) with heq | heq | ⟨key, heq⟩
      · rw [heq]
        exact h
      · rw [heq]
        exact tallied_grown h
      · rw [heq]
        exact fun item hitem => tallied_grown h item (List.mem_of_mem_eraseP hitem)
    · exact h

theorem Tallied.step (h : s.Tallied) (e : Event) : (s.step e).Tallied := by
  cases e with
  | recv dev data size heap =>
    unfold Stack.step ethernetRecv
    simp only
    split
    · exact h
    · rename_i f s₁ hreq
      show ∀ item ∈ s₁.fragments, item.Tallied
      rw [(request_lists hreq).2.1]
      exact h
  | work heap =>
    cases hq : s.queue with
    | nil =>
      unfold Stack.step ethernetWorker
      rw [hq]
      exact h
    | cons f queue =>
      show (s.ethernetWorker heap).Tallied
      rw [worker_eq hq]
      exact Tallied.handle (s := { s with queue := queue }) h

/-! ### The datagram with a key -/

def gathered (key : Key) (frames : List Frame) : Fragment := frames.foldl Fragment.add { key := key }

/-- The cache has one datagram with the key and it has these frames, or it has none and there are no frames. -/
def Caches (s : Stack) (key : Key) (frames : List Frame) : Prop :=
  s.fragments.filter (·.key = key) = if frames.isEmpty then [] else [gathered key frames]

section
variable {key : Key} {frames : List Frame}

theorem gathered_concat : gathered key (frames ++ [f]) = (gathered key frames).add f := List.foldl_concat ..

theorem gathered_key : (gathered key frames).key = key := by
  induction frames using List.reverseRecOn with
  | nil => rfl
  | append_singleton frames f ih => rw [gathered_concat]; exact ih

theorem gathered_frames : (gathered key frames).frames = frames := by
  induction frames using List.reverseRecOn with
  | nil => rfl
  | append_singleton frames f ih =>
    rw [gathered_concat]
    exact congrArg (· ++ [f]) ih

theorem gathered_tallied : (gathered key frames).Tallied := by
  induction frames using List.reverseRecOn with
  | nil => exact ⟨rfl, show 0 < 4294967296 by decide⟩
  | append_singleton frames f ih => rw [gathered_concat]; exact ih.add

theorem filter_change {fragments : List Fragment} {item : Fragment}
    (h : fragments.filter (·.key = key) = [item]) :
    (change key (·.add f) fragments).filter (·.key = key) = [item.add f] := by
  induction fragments with
  | nil => cases h
  | cons first fragments ih =>
    rw [change]
    by_cases hkey : first.key = key
    · rw [List.filter_cons_of_pos (by simpa using hkey)] at h
      obtain ⟨rfl, hrest⟩ := List.cons.inj h
      have hadd : (first.add f).key = key := hkey
      rw [if_pos hkey, List.filter_cons_of_pos (by simpa using hadd), hrest]
    · rw [List.filter_cons_of_neg (by simpa using hkey)] at h
      rw [if_neg hkey, List.filter_cons_of_neg (by simpa using hkey), ih h]

theorem filter_eraseP {α : Type} {p : α → Bool} {l : List α} : (l.eraseP p).filter p = (l.filter p).tail := by
  induction l with
  | nil => rfl
  | cons a l ih =>
    by_cases ha : p a = true
    · rw [List.eraseP_cons_of_pos ha, List.filter_cons_of_pos ha, List.tail_cons]
    · rw [List.eraseP_cons_of_neg ha, List.filter_cons_of_neg ha, List.filter_cons_of_neg ha, ih]

variable (h : s.Caches f.key frames)
include h

theorem Caches.opened : (s.opened f).filter (·.key = f.key) = [gathered f.key frames] := by
  unfold Stack.opened
  cases frames with
  | nil =>
    have hnone : s.fragments.filter (·.key = f.key) = [] := h
    rw [if_neg ?_, List.filter_cons_of_pos (by simp), hnone]
    · rfl
    · intro hany
      obtain ⟨item, hitem, hkey⟩ := List.any_eq_true.mp hany
      exact absurd (List.mem_filter.mpr ⟨hitem, hkey⟩) (by rw [hnone]; exact List.not_mem_nil)
  | cons g frames =>
    have hone : s.fragments.filter (·.key = f.key) = [gathered f.key (g :: frames)] := h
    rw [if_pos ?_, hone]
    have hmem : gathered f.key (g :: frames) ∈ s.fragments.filter (·.key = f.key) := by
      rw [hone]
      exact List.mem_singleton_self _
    obtain ⟨hitem, hkey⟩ := List.mem_filter.mp hmem
    exact List.any_eq_true.mpr ⟨_, hitem, hkey⟩

theorem Caches.grown : (s.grown f).filter (·.key = f.key) = [gathered f.key (frames ++ [f])] := by
  rw [gathered_concat]
  exact filter_change h.opened

theorem Caches.part : ({ s with fragments := s.grown f } : Stack).Caches f.key (frames ++ [f]) := by
  unfold Caches
  rw [h.grown, if_neg (by simp)]

theorem Caches.completed :
    s.completed f = (some (gathered f.key (frames ++ [f]))).filter fun item => item.tally = item.total := by
  unfold Stack.completed
  rw [← List.head?_filter, h.grown]
  rfl

theorem Caches.assembled :
    (({ s with fragments := s.grown f } : Stack).assembled (gathered f.key (frames ++ [f]))).Caches f.key [] := by
  show ((s.grown f).eraseP (·.key = (gathered f.key (frames ++ [f])).key)).filter (·.key = f.key) = []
  rw [gathered_key, filter_eraseP, h.grown]
  rfl

end

/-! ### Sequences of arrivals -/

def Roomy : Event → Nat → Prop
  | .recv .., _ => True
  | .work heap, size => heap (.data size) = true

/-- A datagram is put together only from parts that cover it, and every copy stays inside of its memory. -/
def AssemblesCovered (s : Stack) (e : Event) : Prop :=
  ∀ item, s.assembles e = some item → item.Covered ∧ Roomy e item.total

/-- The parts of a datagram that is put together do not overlap, have no negative sizes and do not reach behind its end,
and there is memory for it. -/
def AssemblesPlain (s : Stack) (e : Event) : Prop :=
  ∀ item, s.assembles e = some item → item.Plain ∧ Roomy e item.total

def AssemblesSmall (s : Stack) (e : Event) : Prop :=
  ∀ item, s.assembles e = some item → Piece.total item.pieces < 4294967296

theorem assembles_spec (h : s.Tallied) (ha : s.assembles e = some item) :
    item.Tallied ∧ item.tally = item.total := by
  cases e with
  | recv => cases ha
  | work heap =>
    obtain ⟨f, -, hf⟩ := Option.bind_eq_some_iff.mp ha
    split at hf
    · obtain ⟨hfind, -, hdone⟩ := completed_find hf
      exact ⟨tallied_grown h item (List.mem_of_find?_eq_some hfind), hdone⟩
    · cases hf

theorem AssemblesCovered.plain (hs : s.Tallied) (hsmall : s.AssemblesSmall e) (h : s.AssemblesCovered e) :
    s.AssemblesPlain e := by
  intro item ha
  obtain ⟨ht, hdone⟩ := assembles_spec hs ha
  exact ⟨(h item ha).1.plain ht hdone (hsmall item ha), (h item ha).2⟩

end Stack

/-- A part of the datagram with a key, as it is received: the bytes of a frame with its checksum. -/
structure Part (key : Key) where
  dev : Netdev
  data : Block
  size : Nat
  start : Nat
  more : Bool
  header : Says data key start more
  size_ge : 38 ≤ size
  size_le : size ≤ 1518

namespace Part

variable {key : Key} {p : Part key} {ps : List (Part key)} {f g : Frame}

/-- What a part is taken to have: all bytes behind the header but the checksum of the frame. -/
def piece (p : Part key) : Piece := ⟨p.start, p.size - 38⟩

theorem piece_size : p.piece.size = p.size - 38 := rfl

theorem end_lt (p : Part key) : p.start + p.piece.size < 67048 := by
  have hstart := p.header.start
  have hsize := p.size_le
  rw [piece_size]
  omega

def Is (p : Part key) (g : Frame) : Prop := ∃ f : Frame, g = (f.fill p.dev p.data p.size).toL4

theorem filled (p : Part key) (f : Frame) : Says (f.fill p.dev p.data p.size).data key p.start p.more :=
  p.header.fill (Nat.le_trans (by omega) p.size_ge)

theorem Is.key_eq (h : p.Is g) : g.key = key := by
  obtain ⟨f, rfl⟩ := h
  exact (p.filled f).toL4_key

theorem Is.l4Size (h : p.Is g) : g.l4Size = p.piece.size := by
  obtain ⟨f, rfl⟩ := h
  rw [(p.filled f).toL4_l4Size]
  show (p.size : Int) - ETH_HLEN - ETH_FCS_LEN - 20 = (p.size - 38 : Nat)
  have := p.size_ge
  unfold ETH_HLEN ETH_FCS_LEN
  omega

theorem Is.piece (h : p.Is g) : g.piece = p.piece := by
  have hsize := h.l4Size
  obtain ⟨f, rfl⟩ := h
  unfold Frame.piece
  rw [hsize, (p.filled f).toL4_offset, Int.toNat_natCast]
  rfl

theorem Is.flags (h : p.Is g) : flags g.l3 % 2 = p.more.toNat := by
  obtain ⟨f, rfl⟩ := h
  exact (p.filled f).toL4_flags

def total (ps : List (Part key)) : Nat :=
  ps.foldl (fun total p => if p.more then total else p.start + p.piece.size) 0

theorem total_concat : total (ps ++ [p]) = if p.more then total ps else p.start + p.piece.size := List.foldl_concat ..

def Done (ps : List (Part key)) : Prop := Piece.total (ps.map piece) % 4294967296 = total ps

instance (ps : List (Part key)) : Decidable (Done ps) := Nat.decEq _ _

end Part

namespace Stack

variable {s : Stack} {heap : Want → Bool} {key : Key} {p : Part key} {ps : List (Part key)} {frames : List Frame}

/-- The parts that have come, each in its frame, are those of the datagram in the cache. -/
def Holds (s : Stack) (key : Key) (ps : List (Part key)) : Prop :=
  s.queue = [] ∧ ∃ l : List (Part key × Frame), (∀ x ∈ l, x.1.Is x.2) ∧ l.map Prod.fst = ps ∧
    s.Caches key (l.map Prod.snd)

section
variable {l : List (Part key × Frame)} (h : ∀ x ∈ l, x.1.Is x.2)
include h

theorem gathered_total : (gathered key (l.map Prod.snd)).total = Part.total (l.map Prod.fst) := by
  induction l using List.reverseRecOn with
  | nil => rfl
  | append_singleton l x ih =>
    obtain ⟨hl, hx⟩ := List.forall_mem_append.mp h
    have hx : x.1.Is x.2 := hx x (List.mem_singleton_self x)
    rw [List.map_append, List.map_append, List.map_singleton, List.map_singleton, gathered_concat, Part.total_concat,
      ← ih hl]
    have hend : x.1.piece.size + 8 * offset x.2.l3 = x.1.start + x.1.piece.size := by
      rw [Nat.add_comm, ← hx.piece]
      exact congrArg (· + _) (congrArg Piece.start hx.piece)
    have hlt := x.1.end_lt
    unfold Fragment.add
    simp only
    rw [hx.flags, hx.l4Size]
    cases x.1.more with
    | true => rfl
    | false =>
      show wrap32 (x.1.piece.size + 8 * offset x.2.l3) = x.1.start + x.1.piece.size
      unfold wrap32
      omega

theorem gathered_pieces : (gathered key (l.map Prod.snd)).pieces = (l.map Prod.fst).map Part.piece := by
  unfold Fragment.pieces
  rw [gathered_frames, List.map_map, List.map_map]
  exact List.map_congr_left fun x hx => (h x hx).piece

theorem gathered_sizes : ∀ f ∈ (gathered key (l.map Prod.snd)).frames, 0 ≤ f.l4Size := by
  rw [gathered_frames]
  intro f hf
  obtain ⟨x, hx, rfl⟩ := List.mem_map.mp hf
  rw [(h x hx).l4Size]
  exact Int.natCast_nonneg _

theorem gathered_tally :
    (gathered key (l.map Prod.snd)).tally = Piece.total ((l.map Prod.fst).map Part.piece) % 4294967296 := by
  rw [gathered_tallied.tally_eq (gathered_sizes h), gathered_pieces h]

end

theorem Holds.congr {s' : Stack} (h : s.Holds key ps) (hqueue : s'.queue = s.queue)
    (hfragments : s'.fragments = s.fragments) : s'.Holds key ps := by
  obtain ⟨hs, l, hl, hps, hcache⟩ := h
  refine ⟨hqueue.trans hs, l, hl, hps, ?_⟩
  unfold Caches
  rwa [hfragments]

theorem Holds.recv (h : s.Holds key ps) (hframe : heap .frame = true) : ∃ (f : Frame) (s₁ : Stack),
    s.ethernetRecv heap p.dev p.data p.size = { s₁ with queue := [f.fill p.dev p.data p.size] } ∧ s₁.Holds key ps ∧
      s₁.handed = s.handed := by
  cases hreq : s.ethernetRequestFrame heap with
  | none =>
    have := (request_none.mp hreq).2
    rw [hframe] at this
    cases this
  | some r =>
    obtain ⟨f, s₁⟩ := r
    obtain ⟨hqueue₁, hfrag₁, hhanded₁, -⟩ := request_lists hreq
    refine ⟨f, s₁, ?_, h.congr hqueue₁ hfrag₁, hhanded₁⟩
    unfold ethernetRecv
    rw [hreq]
    simp only
    rw [hqueue₁, h.1]
    rfl

theorem Holds.completed {g : Frame} (h : s.Holds key ps) (hg : p.Is g) : ∃ l : List (Part key × Frame),
    (∀ x ∈ l, x.1.Is x.2) ∧ l.map Prod.fst = ps ++ [p] ∧
      s.completed g = (if Part.Done (ps ++ [p]) then some (gathered key (l.map Prod.snd)) else none) ∧
      ({ s with fragments := s.grown g } : Stack).Holds key (ps ++ [p]) ∧
      (({ s with fragments := s.grown g } : Stack).assembled (gathered key (l.map Prod.snd))).Holds key [] := by
  obtain ⟨hqueue, l, hl, rfl, hcache⟩ := h
  have hparts : ∀ x ∈ l ++ [(p, g)], x.1.Is x.2 := by
    refine List.forall_mem_append.mpr ⟨hl, fun x hx => ?_⟩
    rw [List.mem_singleton.mp hx]
    exact hg
  have hkey : g.key = key := hg.key_eq
  have hcache' : s.Caches g.key (l.map Prod.snd) := by rwa [hkey]
  have hfst : (l ++ [(p, g)]).map Prod.fst = l.map Prod.fst ++ [p] := List.map_append
  have hsnd : (l ++ [(p, g)]).map Prod.snd = l.map Prod.snd ++ [g] := List.map_append
  refine ⟨l ++ [(p, g)], hparts, hfst, ?_, ⟨hqueue, l ++ [(p, g)], hparts, hfst, ?_⟩, hqueue, [],
    List.forall_mem_nil _, rfl, ?_⟩
  · rw [hcache'.completed, hkey, ← hsnd, ← hfst, Option.filter_some, gathered_total hparts, gathered_tally hparts]
    unfold Part.Done
    simp only [decide_eq_true_eq]
  · have := hcache'.part
    rwa [hkey, ← hsnd] at this
  · have := hcache'.assembled
    rwa [hkey, ← hsnd] at this

variable (heap) in
theorem ipv4_worker {f : Frame} (hqueue : s.queue = []) (htype : f.type = 0x0800) :
    ({ s with queue := [f] } : Stack).ethernetWorker heap = s.ipv4Recv heap f := by
  have hs : ({ s with queue := [] } : Stack) = s := by rw [← hqueue]
  rw [worker_eq rfl]
  unfold handle
  rw [htype, if_neg (by decide), if_pos rfl]
  exact congrArg (fun s : Stack => s.ipv4Recv heap f) hs

section
variable (h : s.Holds key ps) (hheap : ∀ want, heap want = true) (hp : p.more = true ∨ p.start ≠ 0)
include h hheap hp

theorem Holds.assembles : ∃ l : List (Part key × Frame), (∀ x ∈ l, x.1.Is x.2) ∧ l.map Prod.fst = ps ++ [p] ∧
    (s.ethernetRecv heap p.dev p.data p.size).assembles (.work heap) =
      if Part.Done (ps ++ [p]) then some (gathered key (l.map Prod.snd)) else none := by
  obtain ⟨f, s₁, heq, h₁, -⟩ := h.recv (p := p) (hheap .frame)
  obtain ⟨l, hl, hps, hdone, -⟩ := h₁.completed (g := (f.fill p.dev p.data p.size).toL4) ⟨f, rfl⟩
  refine ⟨l, hl, hps, ?_⟩
  have hheader := p.filled f
  rw [heq, ← hdone]
  exact if_pos ⟨p.header.type, hheader.checksum_l3, hheader.toL4_fragmented.mpr hp, .inr (hheap .fragment)⟩

theorem Holds.part (hdone : ¬Part.Done (ps ++ [p])) :
    ((s.ethernetRecv heap p.dev p.data p.size).ethernetWorker heap).Holds key (ps ++ [p]) ∧
      ((s.ethernetRecv heap p.dev p.data p.size).ethernetWorker heap).handed = s.handed := by
  obtain ⟨f, s₁, heq, h₁, hhanded⟩ := h.recv (p := p) (hheap .frame)
  obtain ⟨l, hl, hps, hcomp, hpart, -⟩ := h₁.completed (g := (f.fill p.dev p.data p.size).toL4) ⟨f, rfl⟩
  have hheader := p.filled f
  have hopens : s₁.Opens heap (f.fill p.dev p.data p.size).toL4 := .inr (hheap .fragment)
  rw [if_neg hdone] at hcomp
  have hwork := ipv4Recv_part hheader.checksum_l3 (hheader.toL4_fragmented.mpr hp) hopens hcomp
  have hrun := ipv4_worker heap h₁.1 (show (f.fill p.dev p.data p.size).type = 0x0800 from p.header.type)
  rw [heq, hrun, hwork]
  exact ⟨hpart, hhanded⟩

end

/-! ### Parts of 32 bytes -/

/-- A part of a datagram: the two bytes of the flags and the offset, and the checksum for them. -/
def part (b₁ b₂ lo hi : Byte) : Block := fun i =>
  if i = 12 then 8 else if i = 14 then 0x45 else if i = 20 then b₁ else if i = 21 then b₂ else if i = 24 then lo
  else if i = 25 then hi else 0

def noKey : Key := ⟨0, 0, 0, 0⟩

def first : Part noKey :=
  ⟨default, part 0x20 0 0x9A 0xFF, 70, 0, true, by constructor <;> decide +kernel, by decide, by decide⟩

def far : Part noKey :=
  ⟨default, part 0x20 100 0x9A 0x9B, 70, 800, true, by constructor <;> decide +kernel, by decide, by decide⟩

def everything : Want → Bool := fun _ => true

def arrives (s : Stack) (p : Part noKey) : Stack := s.step (.recv p.dev p.data p.size everything)

def after (s : Stack) (p : Part noKey) : Stack := (s.arrives p).step (.work everything)

section
variable {p : Part noKey} {ps : List (Part noKey)} (h : s.Holds noKey ps) (hp : p.more = true ∨ p.start ≠ 0)
include h hp

end

end Stack
end Novino.Net
