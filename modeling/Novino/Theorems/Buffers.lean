import Novino.Lib.Steps
import Novino.Net.Ipv4

/-! Frame buffers: each is in one place from its arrival to its return, and what is received stays inside of it. -/

namespace Novino.Net

open Steps

namespace Stack

variable {s s' : Stack} {heap : Want → Bool} {f f' : Frame} {held : List Nat} {s'' : Stack} {key : Key}
  {fragments : List Fragment} {item : Fragment} {queue : List Frame} (dev : Netdev)

def parts (fragments : List Fragment) (a : Nat) : Nat := ((fragments.flatMap (·.frames)).map (·.addr)).count a

/-- How often a buffer is among the frames that are free, that wait for the worker, and that are parts of incomplete
    datagrams. -/
def pooled (s : Stack) (a : Nat) : Nat := (s.frames.map (·.addr)).count a
def waiting (s : Stack) (a : Nat) : Nat := (s.queue.map (·.addr)).count a
def cached (s : Stack) (a : Nat) : Nat := parts s.fragments a

/-- Every buffer that was made is in one place or is held by a handler, and no buffer is in two places. -/
def Balanced (s : Stack) (held : List Nat) : Prop :=
  ∀ a, s.pooled a + s.waiting a + s.cached a + held.count a = if a < s.made then 1 else 0

/-- Nothing but the ARP table, the packets that were sent and the mark for a null pointer has changed. -/
structure Quiet (s s' : Stack) : Prop where
  frames : s'.frames = s.frames
  queue : s'.queue = s.queue
  fragments : s'.fragments = s.fragments
  made : s'.made = s.made
  handed : s'.handed = s.handed

/-- Free frames may have been taken and put back as well. -/
structure Keeps (s s' : Stack) : Prop where
  queue : s'.queue = s.queue
  fragments : s'.fragments = s.fragments
  handed : s'.handed = s.handed
  made : s.made ≤ s'.made
  balanced : ∀ held, Balanced s held → Balanced s' held

theorem Quiet.refl : Quiet s s := ⟨rfl, rfl, rfl, rfl, rfl⟩

theorem Quiet.trans (h : Quiet s s') (h' : Quiet s' s'') : Quiet s s'' :=
  ⟨h'.frames.trans h.frames, h'.queue.trans h.queue, h'.fragments.trans h.fragments, h'.made.trans h.made,
    h'.handed.trans h.handed⟩

theorem Quiet.balanced (h : Quiet s s') (hb : Balanced s held) : Balanced s' held := by
  intro a
  have hb := hb a
  unfold pooled waiting cached at *
  rwa [h.frames, h.queue, h.fragments, h.made]

theorem Quiet.keeps (h : Quiet s s') : Keeps s s' :=
  ⟨h.queue, h.fragments, h.handed, h.made.ge, fun _ => h.balanced⟩

theorem Keeps.trans (h : Keeps s s') (h' : Keeps s' s'') : Keeps s s'' :=
  ⟨h'.queue.trans h.queue, h'.fragments.trans h.fragments, h'.handed.trans h.handed, h.made.trans h'.made,
    fun held hb => h'.balanced held (h.balanced held hb)⟩

theorem request_cases (h : s.ethernetRequestFrame heap = some (f, s')) :
    (∃ frames, s.frames = f :: frames ∧ s' = { s with frames := frames }) ∨
      s.frames = [] ∧ f = { addr := s.made } ∧ s' = { s with made := s.made + 1 } := by
  unfold ethernetRequestFrame at h
  split at h
  · rename_i frame frames heq
    obtain ⟨rfl, rfl⟩ := Prod.mk.inj (Option.some_inj.mp h)
    exact .inl ⟨frames, heq, rfl⟩
  · rename_i heq
    split at h
    · obtain ⟨rfl, rfl⟩ := Prod.mk.inj (Option.some_inj.mp h)
      exact .inr ⟨heq, rfl, rfl⟩
    · cases h

theorem request_none : s.ethernetRequestFrame heap = none ↔ s.frames = [] ∧ heap .frame = false := by
  unfold ethernetRequestFrame
  cases s.frames with
  | cons frame frames => exact iff_of_false nofun fun h => absurd h.1 (List.cons_ne_nil _ _)
  | nil => cases heap .frame <;> simp

theorem request_lists (h : s.ethernetRequestFrame heap = some (f, s')) :
    s'.queue = s.queue ∧ s'.fragments = s.fragments ∧ s'.handed = s.handed ∧ s.made ≤ s'.made := by
  rcases request_cases h with ⟨frames, -, rfl⟩ | ⟨-, -, rfl⟩
  · exact ⟨rfl, rfl, rfl, Nat.le_refl _⟩
  · exact ⟨rfl, rfl, rfl, Nat.le_succ _⟩

theorem Balanced.request (hb : Balanced s held) (h : s.ethernetRequestFrame heap = some (f, s')) :
    Balanced s' (f.addr :: held) := by
  intro a
  have hb := hb a
  rcases request_cases h with ⟨frames, heq, rfl⟩ | ⟨heq, rfl, rfl⟩
  · unfold pooled waiting cached at *
    rw [heq, List.map_cons, List.count_cons] at hb
    rw [List.count_cons]
    simp only
    omega
  · unfold pooled waiting cached at *
    rw [List.count_cons]
    simp only [beq_iff_eq]
    split <;> split at hb <;> split <;> omega

theorem Balanced.release (hb : Balanced s (f.addr :: held)) : Balanced (s.ethernetReleaseFrame f) held := by
  intro a
  have hb := hb a
  unfold ethernetReleaseFrame
  unfold pooled waiting cached at *
  rw [List.count_cons] at hb
  simp only [List.map_append, List.map_cons, List.map_nil, List.count_append, List.count_singleton]
  omega

theorem arpInsert_quiet (tpa : Nat) (tha : Block) : Quiet s (s.arpInsert heap dev tpa tha) := by
  unfold arpInsert
  split
  · exact Quiet.refl
  · split
    · exact ⟨rfl, rfl, rfl, rfl, rfl⟩
    · exact ⟨rfl, rfl, rfl, rfl, rfl⟩

theorem sendLoop_quiet (arp : Arp) (payload : Block) (mtu fuel size offset : Nat) :
    Quiet s (sendLoop arp payload mtu fuel size offset s f).1 ∧
      (sendLoop arp payload mtu fuel size offset s f).2.addr = f.addr := by
  induction fuel generalizing s f size offset with
  | zero => exact ⟨Quiet.refl, rfl⟩
  | succ fuel ih =>
    rw [sendLoop]
    split
    · exact ⟨Quiet.refl, rfl⟩
    · refine ⟨Quiet.trans ?_ (ih ..).1, (ih ..).2⟩
      exact ⟨rfl, rfl, rfl, rfl, rfl⟩

theorem keeps_of_request {s₁ s₂ : Stack} (h : s.ethernetRequestFrame heap = some (f, s₁)) (hq : Quiet s₁ s₂)
    (haddr : f'.addr = f.addr) : Keeps s (s₂.ethernetReleaseFrame f') := by
  obtain ⟨hqueue, hfrag, hhanded, hmade⟩ := request_lists h
  refine ⟨hq.queue.trans hqueue, hq.fragments.trans hfrag, hq.handed.trans hhanded, hmade.trans hq.made.ge,
    fun held hb => ?_⟩
  refine Balanced.release ?_
  rw [haddr]
  exact hq.balanced (hb.request h)

theorem fault_keeps : Keeps s { s with fault := true } := Quiet.keeps ⟨rfl, rfl, rfl, rfl, rfl⟩

theorem arpSendRequest_keeps (spa tpa : Nat) : Keeps s (s.arpSendRequest heap dev spa tpa) := by
  unfold arpSendRequest
  split
  · exact fault_keeps
  · rename_i frame s₁ h
    exact keeps_of_request h ⟨rfl, rfl, rfl, rfl, rfl⟩ rfl

theorem ipv4FindNexthop_keeps (address : Nat) : Keeps s (s.ipv4FindNexthop heap address).1 := by
  unfold ipv4FindNexthop
  split
  · exact Quiet.refl.keeps
  · simp only
    split
    · exact Quiet.refl.keeps
    · split
      · exact fault_keeps
      · exact arpSendRequest_keeps ..

theorem ipv4Send_keeps (payload : Block) (size : Nat) (sdp : Sdp) : Keeps s (s.ipv4Send heap payload size sdp) := by
  have hhop : Keeps s (s.ipv4FindNexthop heap sdp.daddr).1 := ipv4FindNexthop_keeps _
  unfold ipv4Send
  generalize s.ipv4FindNexthop heap sdp.daddr = r at *
  obtain ⟨s₁, arp⟩ := r
  cases arp with
  | none => exact hhop
  | some arp =>
    simp only
    split
    · exact hhop.trans fault_keeps
    · rename_i f s₂ h
      obtain ⟨hquiet, haddr⟩ := sendLoop_quiet (s := s₂) (f := f.setL3 (fixedHeader f.l3 sdp)) arp payload
        (effectiveMtu arp.dev.mtu) size size 0
      exact hhop.trans (keeps_of_request h hquiet haddr)

theorem icmpv4Recv_keeps (payload : Block) (size : Int) (sdp : Sdp) :
    Keeps s (s.icmpv4Recv heap payload size sdp).1 := by
  unfold icmpv4Recv
  split
  · exact Quiet.refl.keeps
  · split
    · exact ipv4Send_keeps ..
    · exact Quiet.refl.keeps

variable (heap) in
theorem handUp_keeps (p : Handed) : Keeps { s with handed := s.handed ++ [p] } (s.handUp heap p).1 := by
  unfold handUp
  simp only
  split
  · exact icmpv4Recv_keeps ..
  · exact Quiet.refl.keeps

variable (heap) in
theorem arpRecv_eq (h : f.l3.rd16 0 = ARP_HTYPE_ETHERNET ∧ f.l3.rd16 2 = ARP_PTYPE_IPV4) :
    ∃ s₁ f', Quiet s s₁ ∧ f'.addr = f.addr ∧ s.arpRecv heap dev f = s₁.ethernetReleaseFrame f' := by
  have hinsert : Quiet s (s.arpInsert heap dev (be32 f.l3 14) (f.l3.drop 8)) := arpInsert_quiet ..
  unfold arpRecv
  simp only [h.1, h.2, ne_eq, not_true_eq_false, if_false]
  generalize s.arpInsert heap dev (be32 f.l3 14) (f.l3.drop 8) = s₁ at *
  split
  · split
    · exact ⟨(s₁.arpSendReply dev f).1, (s₁.arpSendReply dev f).2, hinsert.trans ⟨rfl, rfl, rfl, rfl, rfl⟩, rfl, rfl⟩
    · exact ⟨s₁, f, hinsert, rfl, rfl⟩
  · split
    · exact ⟨s₁, f, hinsert, rfl, rfl⟩
    · exact ⟨s, f, Quiet.refl, rfl, rfl⟩

theorem arpRecv_other (h : ¬(f.l3.rd16 0 = ARP_HTYPE_ETHERNET ∧ f.l3.rd16 2 = ARP_PTYPE_IPV4)) :
    s.arpRecv heap dev f = s := by
  unfold arpRecv
  simp only
  split
  · rfl
  · split
    · rfl
    · exact absurd ⟨not_not.mp ‹_›, not_not.mp ‹_›⟩ h

theorem parts_cons (item : Fragment) (fragments : List Fragment) (a : Nat) :
    parts (item :: fragments) a = (item.frames.map (·.addr)).count a + parts fragments a := by
  simp only [parts, List.flatMap_cons, List.map_append, List.count_append]

theorem parts_change (h : fragments.any (·.key = key)) (a : Nat) :
    parts (change key (·.add f) fragments) a = parts fragments a + [f.addr].count a := by
  induction fragments with
  | nil => cases h
  | cons item fragments ih =>
    rw [change]
    split
    · simp only [parts_cons, Fragment.add, List.map_append, List.count_append, List.map_cons, List.map_nil]
      omega
    · rename_i hne
      rw [List.any_cons, Bool.or_eq_true] at h
      rw [parts_cons, parts_cons, ih (h.resolve_left (by simpa using hne))]
      omega

theorem parts_eraseP
    (h : fragments.find? (·.key = key) = some item) (a : Nat) :
    parts (fragments.eraseP (·.key = key)) a + (item.frames.map (·.addr)).count a = parts fragments a := by
  induction fragments with
  | nil => cases h
  | cons first fragments ih =>
    by_cases heq : first.key = key
    · rw [List.find?_cons_of_pos (by simpa using heq)] at h
      obtain rfl := Option.some_inj.mp h
      rw [List.eraseP_cons_of_pos (by simpa using heq), parts_cons]
      omega
    · rw [List.find?_cons_of_neg (by simpa using heq)] at h
      rw [List.eraseP_cons_of_neg (by simpa using heq), parts_cons, parts_cons, ← ih h]
      omega

def opened (s : Stack) (f : Frame) : List Fragment :=
  if s.fragments.any (·.key = f.key) then s.fragments else { key := f.key } :: s.fragments

theorem opened_any : (s.opened f).any (·.key = f.key) = true := by
  unfold opened
  split
  · assumption
  · simp only [List.any_cons, decide_true, Bool.true_or]

theorem parts_opened (a : Nat) : parts (s.opened f) a = parts s.fragments a := by
  unfold opened
  split
  · rfl
  · rw [parts_cons]
    exact Nat.zero_add _

def Opens (s : Stack) (heap : Want → Bool) (f : Frame) : Prop :=
  s.fragments.any (·.key = f.key) = true ∨ heap .fragment = true

instance : Decidable (s.Opens heap f) := inferInstanceAs (Decidable (_ ∨ _))

def grown (s : Stack) (f : Frame) : List Fragment := change f.key (·.add f) (s.opened f)

theorem cache_eq (h : s.Opens heap f) : s.ipv4FragmentCache heap f =
    some ({ s with fragments := s.grown f },
      ((s.grown f).find? (·.key = f.key)).filter fun item => item.tally = item.total) := by
  unfold ipv4FragmentCache
  simp only
  rw [if_neg ?_]
  · rfl
  · rcases h with h | h <;> rw [h] <;> simp

theorem cache_none (h : ¬s.Opens heap f) : s.ipv4FragmentCache heap f = none := by
  obtain ⟨hknown, hheap⟩ := not_or.mp h
  unfold ipv4FragmentCache
  simp only
  rw [if_pos (by simp [hknown, hheap])]

theorem Balanced.cache (hb : Balanced s (f.addr :: held)) : Balanced { s with fragments := s.grown f } held := by
  intro a
  have hb : s.pooled a + s.waiting a + parts s.fragments a + (f.addr :: held).count a = _ := hb a
  have hparts := parts_change (f := f) (opened_any (s := s) (f := f)) a
  rw [parts_opened] at hparts
  rw [List.count_cons, ← List.count_singleton] at hb
  show s.pooled a + s.waiting a + parts (change f.key (·.add f) (s.opened f)) a + held.count a = _
  rw [hparts, ← hb]
  omega

theorem assembleLoop_fst (frames : List Frame) (data : Block) :
    (assembleLoop frames s data).1 = { s with frames := s.frames ++ frames } := by
  induction frames generalizing s data with
  | nil => rw [List.append_nil]; rfl
  | cons item frames ih =>
    rw [assembleLoop, ih]
    simp only [ethernetReleaseFrame, List.append_assoc, List.singleton_append]

def assembled (s : Stack) (item : Fragment) : Stack :=
  { s with frames := s.frames ++ item.frames, fragments := s.fragments.eraseP (·.key = item.key) }

theorem assemble_eq (item : Fragment) (h : heap (.data item.total) = true) :
    s.ipv4FragmentAssemble heap item = some (s.assembled item, (assembleLoop item.frames s Block.zero).2) := by
  unfold ipv4FragmentAssemble
  rw [h]
  simp only [Bool.not_true, Bool.false_eq_true, if_false, assembleLoop_fst]
  rfl

theorem Balanced.assembled (hb : Balanced s held)
    (h : s.fragments.find? (·.key = item.key) = some item) : Balanced (s.assembled item) held := by
  intro a
  have hb : s.pooled a + s.waiting a + parts s.fragments a + held.count a = _ := hb a
  have hparts := parts_eraseP h a
  have hpooled : (s.assembled item).pooled a = s.pooled a + (item.frames.map (·.addr)).count a := by
    unfold pooled Stack.assembled
    rw [List.map_append, List.count_append]
  show _ + s.waiting a + parts (s.fragments.eraseP (·.key = item.key)) a + held.count a = if a < s.made then 1 else 0
  rw [hpooled, ← hb]
  omega

def completed (s : Stack) (f : Frame) : Option Fragment :=
  ((s.grown f).find? (·.key = f.key)).filter fun item => item.tally = item.total

theorem completed_find (h : s.completed f = some item) :
    (s.grown f).find? (·.key = item.key) = some item ∧ item.key = f.key ∧ item.tally = item.total := by
  obtain ⟨hfind, hdone⟩ := Option.filter_eq_some_iff.mp h
  have hkey : item.key = f.key := by simpa using List.find?_some hfind
  exact ⟨hkey ▸ hfind, hkey, by simpa using hdone⟩

theorem ipv4Recv_bad (h : ipv4Checksum f.l3 f.headerSize ≠ 0) : s.ipv4Recv heap f = s := if_pos h

section
variable (hsum : ipv4Checksum f.l3 f.headerSize = 0)
include hsum

variable (heap) in
theorem ipv4Recv_whole (h : ¬f.toL4.Fragmented) : ∃ f', f'.addr = f.addr ∧ s.ipv4Recv heap f =
    (s.handUp heap ⟨f.toL4.l4Size, f.toL4.l4, f.toL4.sdp⟩).1.ethernetReleaseFrame f' := by
  unfold ipv4Recv
  rw [if_neg (fun hne => hne hsum)]
  simp only [if_neg h]
  refine ⟨_, ?_, rfl⟩
  rfl

theorem ipv4Recv_closed (h : f.toL4.Fragmented) (ho : ¬s.Opens heap f.toL4) :
    s.ipv4Recv heap f = { s with fault := true } := by
  unfold ipv4Recv
  rw [if_neg (fun hne => hne hsum)]
  simp only [if_pos h, cache_none ho]

theorem ipv4Recv_part (h : f.toL4.Fragmented) (ho : s.Opens heap f.toL4) (hc : s.completed f.toL4 = none) :
    s.ipv4Recv heap f = { s with fragments := s.grown f.toL4 } := by
  unfold ipv4Recv
  rw [if_neg (fun hne => hne hsum)]
  simp only [if_pos h, cache_eq ho]
  unfold completed at hc
  rw [hc]

theorem ipv4Recv_last (h : f.toL4.Fragmented) (ho : s.Opens heap f.toL4) {item : Fragment}
    (hc : s.completed f.toL4 = some item) :
    s.ipv4Recv heap f =
      let s := { s with fragments := s.grown f.toL4 }
      if heap (.data item.total) then
        ((s.assembled item).handUp heap ⟨toInt32 item.total, (assembleLoop item.frames s Block.zero).2,
          f.toL4.sdp⟩).1
      else { s with fault := true } := by
  unfold ipv4Recv
  rw [if_neg (fun hne => hne hsum)]
  simp only [if_pos h, cache_eq ho]
  unfold completed at hc
  rw [hc]
  simp only
  by_cases hm : heap (.data item.total) = true
  · rw [if_pos hm, assemble_eq item hm]
  · rw [if_neg hm]
    unfold ipv4FragmentAssemble
    rw [if_pos (by simpa using hm)]

end

theorem ipv4Recv_balanced (hb : Balanced s [f.addr]) (hsum : ipv4Checksum f.l3 f.headerSize = 0)
    (ho : f.toL4.Fragmented → s.Opens heap f.toL4) :
    Balanced (s.ipv4Recv heap f) [] ∧ (s.ipv4Recv heap f).queue = s.queue ∧ s.made ≤ (s.ipv4Recv heap f).made := by
  by_cases hf : f.toL4.Fragmented
  · have hcache : Balanced { s with fragments := s.grown f.toL4 } [] := Balanced.cache hb
    cases hc : s.completed f.toL4 with
    | none =>
      rw [ipv4Recv_part hsum hf (ho hf) hc]
      exact ⟨hcache, rfl, Nat.le_refl _⟩
    | some item =>
      rw [ipv4Recv_last hsum hf (ho hf) hc]
      simp only
      split
      · have hkeeps := handUp_keeps (s := ({ s with fragments := s.grown f.toL4 } : Stack).assembled item)
          heap ⟨toInt32 item.total,
            (assembleLoop item.frames { s with fragments := s.grown f.toL4 } Block.zero).2, f.toL4.sdp⟩
        exact ⟨hkeeps.balanced [] (hcache.assembled (completed_find hc).1), hkeeps.queue, hkeeps.made⟩
      · exact ⟨fault_keeps.balanced [] hcache, rfl, Nat.le_refl _⟩
  · obtain ⟨f', haddr, heq⟩ := ipv4Recv_whole (s := s) heap hsum hf
    have hkeeps := handUp_keeps (s := s) heap ⟨f.toL4.l4Size, f.toL4.l4, f.toL4.sdp⟩
    rw [heq]
    refine ⟨Balanced.release ?_, hkeeps.queue, hkeeps.made⟩
    rw [haddr]
    exact hkeeps.balanced _ hb

inductive Event where
  | recv (dev : Netdev) (data : Block) (size : Nat) (heap : Want → Bool)
  | work (heap : Want → Bool)

def step (s : Stack) : Event → Stack
  | .recv dev data size heap => s.ethernetRecv heap dev data size
  | .work heap => s.ethernetWorker heap

/-- Every buffer that was made is in one place after the step, the frame that the worker has handled included. -/
def InPlace (s : Stack) (e : Event) : Prop :=
  Balanced (s.step e) [] ∧ ∀ heap, e = .work heap → ∀ f ∈ s.queue.head?,
    (s.step e).pooled f.addr + (s.step e).cached f.addr = 1

/-- The worker can handle a frame: no ARP packet of another kind, no wrong checksum, and no first part of a datagram
without memory. -/
def Handles (s : Stack) (heap : Want → Bool) (f : Frame) : Prop :=
  (f.type = 0x0806 → f.l3.rd16 0 = ARP_HTYPE_ETHERNET ∧ f.l3.rd16 2 = ARP_PTYPE_IPV4) ∧
    (f.type = 0x0800 → ipv4Checksum f.l3 f.headerSize = 0 ∧ (f.toL4.Fragmented → s.Opens heap f.toL4))

instance : Decidable (s.Handles heap f) := inferInstanceAs (Decidable ((_ → _) ∧ (_ → _)))

def Handled (s : Stack) : Event → Prop
  | .recv .. => True
  | .work heap => ∀ f ∈ s.queue.head?, s.Handles heap f

theorem recv_balanced (hb : Balanced s []) (dev : Netdev) (data : Block) (size : Nat) :
    Balanced (s.ethernetRecv heap dev data size) [] := by
  unfold ethernetRecv
  split
  · exact fault_keeps.balanced [] hb
  · rename_i f s₁ h
    intro a
    have hreq : s₁.pooled a + s₁.waiting a + s₁.cached a + [f.addr].count a = _ := hb.request h a
    have hwait : ({ s₁ with queue := s₁.queue ++ [f.fill dev data size] } : Stack).waiting a =
        s₁.waiting a + [f.addr].count a := by
      unfold waiting
      rw [List.map_append, List.count_append]
      rfl
    show s₁.pooled a + _ + s₁.cached a + 0 = if a < s₁.made then 1 else 0
    rw [hwait, ← hreq]
    omega

theorem Balanced.popped (hb : Balanced s []) (hq : s.queue = f :: queue) :
    Balanced { s with queue := queue } [f.addr] := by
  intro a
  have hb : s.pooled a + s.waiting a + s.cached a + 0 = _ := hb a
  have hwait : s.waiting a = (queue.map (·.addr)).count a + [f.addr].count a := by
    unfold waiting
    rw [hq, List.map_cons, ← List.singleton_append, List.count_append, Nat.add_comm]
  show s.pooled a + (queue.map (·.addr)).count a + s.cached a + [f.addr].count a = if a < s.made then 1 else 0
  omega

theorem Balanced.absent (hb : Balanced s [f.addr]) :
    s.pooled f.addr = 0 ∧ s.waiting f.addr = 0 ∧ s.cached f.addr = 0 ∧ f.addr < s.made := by
  have h := hb f.addr
  rw [List.count_singleton_self] at h
  split at h <;> omega

theorem Balanced.not_lost (hb : Balanced s [f.addr]) : ¬Balanced s [] := by
  intro h
  obtain ⟨h1, h2, h3, hlt⟩ := hb.absent
  have := h f.addr
  rw [if_pos hlt, List.count_nil] at this
  omega

def handle (s : Stack) (heap : Want → Bool) (f : Frame) : Stack :=
  if f.type = 0x0806 then s.arpRecv heap f.dev f
  else if f.type = 0x0800 then s.ipv4Recv heap f
  else s.ethernetReleaseFrame f

theorem worker_eq (hq : s.queue = f :: queue) :
    s.ethernetWorker heap = handle { s with queue := queue } heap f := by
  unfold ethernetWorker
  rw [hq]
  rfl

theorem handle_balanced (hb : Balanced s [f.addr]) (h : s.Handles heap f) :
    Balanced (s.handle heap f) [] ∧ (s.handle heap f).queue = s.queue ∧ s.made ≤ (s.handle heap f).made := by
  unfold handle
  split
  · obtain ⟨s₁, f', hquiet, haddr, heq⟩ := arpRecv_eq (s := s) heap f.dev (h.1 ‹_›)
    rw [heq]
    refine ⟨Balanced.release ?_, hquiet.queue, hquiet.made.ge⟩
    rw [haddr]
    exact hquiet.balanced hb
  · split
    · exact ipv4Recv_balanced hb (h.2 ‹_›).1 (h.2 ‹_›).2
    · exact ⟨hb.release, rfl, Nat.le_refl _⟩

theorem handle_lost (hb : Balanced s [f.addr]) (h : ¬s.Handles heap f) : ¬Balanced (s.handle heap f) [] := by
  unfold handle
  split
  · rename_i htype
    rw [arpRecv_other f.dev fun hok => h ⟨fun _ => hok, fun h' => absurd (htype.symm.trans h') (by decide)⟩]
    exact hb.not_lost
  · rename_i hno
    split
    · rename_i htype
      have hbad : ¬(ipv4Checksum f.l3 f.headerSize = 0 ∧ (f.toL4.Fragmented → s.Opens heap f.toL4)) :=
        fun hok => h ⟨fun h' => absurd h' hno, fun _ => hok⟩
      by_cases hsum : ipv4Checksum f.l3 f.headerSize = 0
      · have hclosed : ¬(f.toL4.Fragmented → s.Opens heap f.toL4) := fun ho => hbad ⟨hsum, ho⟩
        obtain ⟨hf, ho⟩ := Classical.not_imp.mp hclosed
        rw [ipv4Recv_closed hsum hf ho]
        exact Balanced.not_lost (f := f) (fault_keeps.balanced _ hb)
      · rw [ipv4Recv_bad hsum]
        exact hb.not_lost
    · rename_i hno'
      exact absurd ⟨fun h' => absurd h' hno, fun h' => absurd h' hno'⟩ h

theorem inPlace_iff (hb : Balanced s []) (e : Event) : s.InPlace e ↔ s.Handled e := by
  cases e with
  | recv dev data size heap =>
    refine iff_of_true ⟨recv_balanced hb dev data size, ?_⟩ trivial
    intro heap' h
    cases h
  | work heap =>
    cases hq : s.queue with
    | nil =>
      have hstep : s.step (.work heap) = s := by
        unfold step ethernetWorker
        rw [hq]
      refine iff_of_true ⟨by rwa [hstep], ?_⟩ ?_
      · intro heap' _ f hf
        rw [hq] at hf
        cases hf
      · intro f hf
        rw [hq] at hf
        cases hf
    | cons f queue =>
      have hstep : s.step (.work heap) = handle { s with queue := queue } heap f := worker_eq hq
      have hhead : ∀ g, g ∈ s.queue.head? ↔ g = f := by
        intro g
        rw [hq, List.head?_cons, Option.mem_some_iff]
        exact eq_comm
      have hpop := hb.popped hq
      have hhandled : s.Handled (.work heap) ↔ ({ s with queue := queue } : Stack).Handles heap f := by
        simp only [Handled, hhead, forall_eq]
        rfl
      rw [hhandled]
      constructor
      · intro hin
        by_contra hno
        exact handle_lost hpop hno (hstep ▸ hin.1)
      · intro hh
        obtain ⟨hbal, hqueue, hmade⟩ := handle_balanced hpop hh
        refine ⟨hstep ▸ hbal, ?_⟩
        intro heap' _ g hg
        obtain rfl := (hhead g).mp hg
        obtain ⟨-, hwait, -, hlt⟩ := hpop.absent
        have hcount := hbal g.addr
        have hwait' : (handle { s with queue := queue } heap g).waiting g.addr = 0 := by
          unfold waiting at hwait ⊢
          rw [hqueue]
          exact hwait
        rw [if_pos (lt_of_lt_of_le hlt hmade), hwait', List.count_nil] at hcount
        rw [hstep]
        omega

theorem balanced_init : Balanced {} [] := fun a => by
  rw [if_neg (Nat.not_lt_zero a)]
  rfl

/-- Every frame that was handled is in one place, exactly if the worker can handle every frame that it takes. -/
theorem frames_in_place_iff (events : List Event) : Along step InPlace {} events ↔ Along step Handled {} events := by
  have hkeep : ∀ (s : Stack) (e : Event), Balanced s [] → True → s.Handled e → Balanced (s.step e) [] :=
    fun s e hb _ hh => ((inPlace_iff hb e).mpr hh).1
  exact Along.congr (P := fun _ _ => True) hkeep (fun s e hb _ => inPlace_iff hb e) balanced_init
    (Along.of_forall fun _ _ => trivial)

def ofType (hi lo : Byte) : Block := fun i => if i = 12 then hi else if i = 13 then lo else 0

def arrived (hi lo : Byte) : Stack := ({} : Stack).step (.recv default (ofType hi lo) 64 fun _ => true)

/-- An ARP packet for another kind of hardware, and an IPv4 packet with a wrong checksum: the frame is nowhere. -/
theorem frames_lost :
    (¬(arrived 8 6).InPlace (.work fun _ => true) ∧ ((arrived 8 6).step (.work fun _ => true)).made = 1 ∧
        ((arrived 8 6).step (.work fun _ => true)).pooled 0 + ((arrived 8 6).step (.work fun _ => true)).cached 0 = 0) ∧
      ¬(arrived 8 0).InPlace (.work fun _ => true) ∧ ((arrived 8 0).step (.work fun _ => true)).made = 1 ∧
        ((arrived 8 0).step (.work fun _ => true)).pooled 0 + ((arrived 8 0).step (.work fun _ => true)).cached 0 =
          0 := by
  have hzero : ∀ hi lo, ((arrived hi lo).step (.work fun _ => true)).pooled 0 +
      ((arrived hi lo).step (.work fun _ => true)).cached 0 = 0 → ¬(arrived hi lo).InPlace (.work fun _ => true) := by
    intro hi lo h hin
    have hone : ((arrived hi lo).step (.work fun _ => true)).pooled 0 +
        ((arrived hi lo).step (.work fun _ => true)).cached 0 = 1 := hin.2 _ rfl _ (show _ ∈ some _ from rfl)
    exact absurd (h.symm.trans hone) (by decide)
  have harp : ((arrived 8 6).step (.work fun _ => true)).pooled 0 +
      ((arrived 8 6).step (.work fun _ => true)).cached 0 = 0 := by decide +kernel
  have hipv4 : ((arrived 8 0).step (.work fun _ => true)).pooled 0 +
      ((arrived 8 0).step (.work fun _ => true)).cached 0 = 0 := by decide +kernel
  exact ⟨⟨hzero 8 6 harp, rfl, harp⟩, hzero 8 0 hipv4, rfl, hipv4⟩

end Stack

/-! ### The bounds of a buffer -/

/-- The parts of the buffer that the receive path touches: the copy, the packet of ARP, the header of IPv4 as it is read
and as it is summed up, and the payload. -/
def Frame.touched (f : Frame) : List (Nat × Nat) :=
  (0, toSize f.l2Size) ::
    if f.type = 0x0806 then [(ETH_HLEN, Stack.ARP_PACKET)]
    else if f.type = 0x0800 then
      [(ETH_HLEN, IPV4_HEADER), (ETH_HLEN, f.headerSize)] ++
        if ipv4Checksum f.l3 f.headerSize = 0 then [(f.toL4.l4Data, toSize f.toL4.l4Size)] else []
    else []

structure Frame.Bounded (f : Frame) : Prop where
  inside : ∀ t ∈ f.touched, t.1 + t.2 ≤ FRAME_SIZE
  header : f.type = 0x0800 → (f.headerSize : Int) ≤ f.l3Size
  payload : f.type = 0x0800 → ipv4Checksum f.l3 f.headerSize = 0 → 0 ≤ f.toL4.l4Size ∧ f.toL4.l4Size ≤ f.l3Size

theorem toSize_of_nonneg {n : Int} (h : 0 ≤ n) (hlt : n < 4294967296) : (toSize n : Int) = n := by
  unfold toSize
  omega

section
variable {f : Frame} {dev : Netdev} {data : Block} {size : Nat}

theorem fill_data : Block.Agree (f.fill dev data size).data data 0 size := by
  intro i _ hi
  show (if 0 ≤ i ∧ i < 0 + size then data (i - 0) else f.data i) = data i
  rw [if_pos ⟨Nat.zero_le i, by omega⟩, Nat.sub_zero]

theorem fill_headerSize (h : 18 ≤ size) : (f.fill dev data size).headerSize = 4 * (data.rd8 14 % 16) := by
  have hbyte : (f.fill dev data size).data 14 = data 14 := fill_data 14 (by omega) (by omega)
  unfold Frame.headerSize ihl Block.rd8
  show 4 * (((f.fill dev data size).data 14).toNat % 16) = _
  rw [hbyte]

theorem fill_bounded_iff (hlo : 18 ≤ size) (hhi : size ≤ 1518) :
    (f.fill dev data size).Bounded ↔
      size ≤ FRAME_SIZE ∧ (swap16 (data.rd16 12) = 0x0800 → 4 * (data.rd8 14 % 16) + 18 ≤ size) := by
  have hl2 : (f.fill dev data size).l2Size = size := rfl
  have hl3 : (f.fill dev data size).l3Size = (size : Int) - 18 := by
    show (size : Int) - ETH_HLEN - ETH_FCS_LEN = _
    unfold ETH_HLEN ETH_FCS_LEN
    omega
  have htype : (f.fill dev data size).type = swap16 (data.rd16 12) := rfl
  have hheader : (f.fill dev data size).headerSize = 4 * (data.rd8 14 % 16) := fill_headerSize hlo
  have hihl : data.rd8 14 % 16 < 16 := Nat.mod_lt _ (by decide)
  generalize f.fill dev data size = g at *
  have hl4 : g.toL4.l4Size = (size : Int) - 18 - g.headerSize := by rw [← hl3]; rfl
  have hl4Data : g.toL4.l4Data = 14 + g.headerSize := rfl
  constructor
  · intro hb
    have hcopy := hb.inside _ List.mem_cons_self
    have hsize := toSize_of_nonneg (n := g.l2Size) (by omega) (by omega)
    refine ⟨by simp only at hcopy; omega, fun ht => ?_⟩
    have := hb.header (htype.trans ht)
    omega
  · rintro ⟨hsize, hh⟩
    unfold FRAME_SIZE at hsize
    have hheader' : g.type = 0x0800 → (g.headerSize : Int) ≤ g.l3Size := fun ht => by
      have := hh (htype.symm.trans ht)
      omega
    refine ⟨fun t ht => ?_, hheader', fun ht _ => ?_⟩
    · unfold Frame.touched at ht
      have hl2Size := toSize_of_nonneg (n := g.l2Size) (by omega) (by omega)
      rcases List.mem_cons.mp ht with rfl | ht
      · unfold FRAME_SIZE
        simp only
        omega
      · split at ht
        · rw [List.mem_singleton.mp ht]
          decide
        · split at ht
          · have := hheader' ‹_›
            rcases List.mem_append.mp ht with ht | ht
            · rcases List.mem_cons.mp ht with rfl | ht
              · decide
              · rw [List.mem_singleton.mp ht]
                unfold FRAME_SIZE ETH_HLEN
                simp only
                omega
            · split at ht
              · rw [List.mem_singleton.mp ht]
                have hl4Size := toSize_of_nonneg (n := g.toL4.l4Size) (by omega) (by omega)
                unfold FRAME_SIZE
                simp only
                omega
              · cases ht
          · cases ht
    · have := hheader' ht
      omega

end

/-- A frame with any content is received inside of its buffer, and its header and payload are inside of what was
received, exactly if there is a frame for it, it has at most 1516 bytes, and the header is not longer than the packet.
-/
theorem receive_bounded_iff (s : Stack) (heap : Want → Bool) (dev : Netdev) (data : Block) (size : Nat)
    (hlo : 18 ≤ size) (hhi : size ≤ 1518) :
    (∃ f, (s.ethernetRecv heap dev data size).queue = s.queue ++ [f] ∧ f.Bounded) ↔
      (s.frames ≠ [] ∨ heap .frame = true) ∧ size ≤ FRAME_SIZE ∧
        (swap16 (data.rd16 12) = 0x0800 → 4 * (data.rd8 14 % 16) + 18 ≤ size) := by
  unfold Stack.ethernetRecv
  cases h : s.ethernetRequestFrame heap with
  | none =>
    obtain ⟨hnil, hheap⟩ := Stack.request_none.mp h
    refine iff_of_false ?_ fun hc => ?_
    · rintro ⟨f, hq, -⟩
      exact absurd (congrArg List.length hq) (by simp)
    · rcases hc.1 with hc | hc
      · exact hc hnil
      · rw [hheap] at hc
        cases hc
  | some r =>
    obtain ⟨f, s₁⟩ := r
    have hframe : s.frames ≠ [] ∨ heap .frame = true := by
      by_contra hno
      obtain ⟨hnil, hheap⟩ := not_or.mp hno
      have := Stack.request_none.mpr ⟨not_not.mp hnil, Bool.eq_false_iff.mpr hheap⟩
      rw [h] at this
      cases this
    have hqueue := (Stack.request_lists h).1
    have hbounded : (f.fill dev data size).Bounded ↔ _ := fill_bounded_iff hlo hhi
    rw [← hbounded]
    simp only [hqueue, List.append_cancel_left_eq, List.cons.injEq, and_true]
    constructor
    · rintro ⟨g, rfl, hb⟩
      exact ⟨hframe, hb⟩
    · rintro ⟨-, hb⟩
      exact ⟨_, rfl, hb⟩

def packet (first lo hi : Byte) : Block := fun i =>
  if i = 12 then 8 else if i = 14 then first else if i = 24 then lo else if i = 25 then hi else 0

theorem receive_bounded_short :
    ∃ f, (({} : Stack).ethernetRecv (fun _ => true) default (packet 0x45 0xBA 0xFF) 64).queue = [] ++ [f] ∧ f.Bounded :=
  (receive_bounded_iff {} (fun _ => true) default (packet 0x45 0xBA 0xFF) 64 (by decide) (by decide)).mpr (by decide)

/-- A frame of 1518 bytes is longer than its buffer. A packet with 60 bytes of header in a frame of 64 bytes is passed
on with -14 bytes of payload. -/
theorem receive_not_bounded :
    (∀ f : Frame, ¬(f.fill default (packet 0x45 0xBA 0xFF) 1518).Bounded) ∧
      let f := ({ addr := 0 } : Frame).fill default (packet 0x4F 0xB0 0xFF) 64
      ipv4Checksum f.l3 f.headerSize = 0 ∧ f.toL4.l4Size = -14 ∧ ¬f.Bounded := by
  refine ⟨fun f hb => ?_, by decide +kernel, by decide +kernel, fun hb => ?_⟩
  · exact absurd ((fill_bounded_iff (by decide) (by decide)).mp hb).1 (by decide)
  · exact absurd ((fill_bounded_iff (by decide) (by decide)).mp hb).2 (by decide)

end Novino.Net
