import Novino.Net.Arp

/-! IPv4 (`kernel/net/ipv4.c`): routes, sending in fragments, receiving and putting fragments together, and the replies
    of ICMP. -/

namespace Novino.Net

/-- The sum of the 16-bit words of `n` bytes from `o` on, a single last byte taken as a word. -/
def wordSum (b : Block) : Nat → Nat → Nat
  | _, 0 => 0
  | o, 1 => b.rd8 o
  | o, n + 2 => b.rd16 o + wordSum b (o + 2) n

def foldSum : Nat → Nat → Nat
  | 0, sum => sum
  | fuel + 1, sum => if sum > 0xFFFF then foldSum fuel (sum % 65536 + sum / 65536) else sum

/-- `ipv4_checksum`. For a negative length the second test finds a byte. -/
def ipv4Checksum (b : Block) (len : Int) : Nat :=
  let sum := if len < 0 then b.rd8 0 else wordSum b 0 len.toNat
  65535 - foldSum 32 (sum % 4294967296)

def IPV4_HEADER : Nat := 20

def ihl (h : Block) : Nat := h.rd8 0 % 16
def ident (h : Block) : Nat := h.rd16 4
def offset (h : Block) : Nat := h.rd16 6 % 8192
def flags (h : Block) : Nat := h.rd16 6 / 8192
def protocol (h : Block) : Nat := h.rd8 9
def saddr (h : Block) : Nat := h.rd32 12
def daddr (h : Block) : Nat := h.rd32 16

/-- The fields of more than a byte are turned from network order into the order of the machine. -/
def toHost (h : Block) : Block :=
  let h := h.wr16 2 (swap16 (h.rd16 2))
  let h := h.wr16 6 (swap16 (h.rd16 6))
  let h := h.wr32 16 (swap32 (daddr h))
  h.wr32 12 (swap32 (saddr h))

variable (f : Frame)

def Frame.headerSize : Nat := 4 * ihl f.l3

/-- The frame with its layer 4, which is taken to be all that was received behind the header. -/
def Frame.toL4 : Frame :=
  { f.setL3 (toHost f.l3) with l4Size := f.l3Size - f.headerSize, l4Data := ETH_HLEN + f.headerSize }

def Frame.Fragmented : Prop := flags f.l3 % 2 = 1 ∨ offset f.l3 ≠ 0

instance (f : Frame) : Decidable f.Fragmented := inferInstanceAs (Decidable (_ ∨ _))

def Frame.key : Key := ⟨ident f.l3, saddr f.l3, daddr f.l3, protocol f.l3⟩

def Frame.sdp : Sdp := ⟨saddr f.l3, daddr f.l3, protocol f.l3⟩

/-- A frame is added to a datagram. The one without the flag for more fragments gives the size of the whole. -/
def Fragment.add (item : Fragment) (f : Frame) : Fragment :=
  { item with
    frames := item.frames ++ [f]
    tally := wrap32 (item.tally + f.l4Size)
    total := if flags f.l3 % 2 = 0 then wrap32 (f.l4Size + 8 * offset f.l3) else item.total }

def change (key : Key) (g : Fragment → Fragment) : List Fragment → List Fragment
  | [] => []
  | item :: fragments => if item.key = key then g item :: fragments else item :: change key g fragments

namespace Stack

variable (s : Stack) (heap : Want → Bool)

/-- `ipv4_fragment_cache`: the datagram that is complete with the frame. Without memory the key is written through a
null pointer. -/
def ipv4FragmentCache (frame : Frame) : Option (Stack × Option Fragment) :=
  let known := s.fragments.any (·.key = frame.key)
  if !known && !heap .fragment then none
  else
    let fragments := if known then s.fragments else { key := frame.key } :: s.fragments
    let fragments := change frame.key (·.add frame) fragments
    let item := fragments.find? (·.key = frame.key)
    some ({ s with fragments := fragments }, item.filter fun item => item.tally = item.total)

def assembleLoop : List Frame → Stack → Block → Stack × Block
  | [], s, data => (s, data)
  | item :: frames, s, data =>
    assembleLoop frames (s.ethernetReleaseFrame item) (data.copy (8 * offset item.l3) item.l4 (toSize item.l4Size))

/-- `ipv4_fragment_assemble`. Without memory the data is written through a null pointer. -/
def ipv4FragmentAssemble (fragment : Fragment) : Option (Stack × Block) :=
  if !heap (.data fragment.total) then none
  else
    let (s, data) := assembleLoop fragment.frames s Block.zero
    some ({ s with fragments := s.fragments.eraseP (·.key = fragment.key) }, data)

def ipv4FindRoute (address : Nat) : Option Route :=
  s.routes.foldl (fun route item =>
    if item.pfx = 0 then route.or (some item)
    else if address &&& item.mask = item.subnet then
      if (route.all fun r => item.pfx > r.pfx) then some item else route
    else route) none

/-- `ipv4_find_nexthop`. Between the two lookups nothing is received in the same thread. -/
def ipv4FindNexthop (address : Nat) : Stack × Option Arp :=
  match s.ipv4FindRoute address with
  | none => (s, none)
  | some rt =>
    let address := if rt.nexthop ≠ 0 then rt.nexthop else address
    match s.arpLookup address with
    | some arp => (s, some arp)
    | none =>
      match rt.dev.ipv4 with
      | [] => ({ s with fault := true }, none)
      | ip :: _ =>
        let s := s.arpSendRequest heap rt.dev ip address
        (s, s.arpLookup address)

def effectiveMtu (mtu : Nat) : Nat := (mtu - IPV4_HEADER) / 8 * 8

def fixedHeader (h : Block) (sdp : Sdp) : Block :=
  let h := h.wr8 0 0x45
  let h := h.wr8 1 0
  let h := h.wr8 8 64
  let h := h.wr8 9 sdp.proto
  let h := h.wr16 4 1234
  let h := h.wr32 12 (swap32 sdp.saddr)
  h.wr32 16 (swap32 sdp.daddr)

def fragmentHeader (h : Block) (length offset : Nat) (more : Bool) : Block :=
  let h := h.wr16 6 (swap16 (more.toNat * 8192 + offset / 8 % 8192))
  let h := h.wr16 2 (swap16 (length + IPV4_HEADER))
  let h := h.wr16 10 0
  h.wr16 10 (ipv4Checksum h IPV4_HEADER)

def sendLoop (arp : Arp) (payload : Block) (mtu : Nat) : Nat → Nat → Nat → Stack → Frame → Stack × Frame
  | 0, _, _, s, f => (s, f)
  | fuel + 1, size, offset, s, f =>
    if size = 0 then (s, f)
    else
      let length := if size > mtu then mtu else size
      let size := size - length
      let h := fragmentHeader f.l3 length offset (size ≠ 0)
      let h := h.copy IPV4_HEADER (payload.drop offset) length
      let f := { f.setL3 h with l3Size := length + IPV4_HEADER }
      let (s, f) := s.ethernetSend arp.dev arp.mac 0x0800 f
      sendLoop arp payload mtu fuel size (offset + length) s f

/-- `ipv4_send`. Each turn of the loop sends at least one byte. -/
def ipv4Send (payload : Block) (size : Nat) (sdp : Sdp) : Stack :=
  let (s, arp) := s.ipv4FindNexthop heap sdp.daddr
  match arp with
  | none => s
  | some arp =>
    match s.ethernetRequestFrame heap with
    | none => { s with fault := true }
    | some (f, s) =>
      let f := f.setL3 (fixedHeader f.l3 sdp)
      let (s, f) := sendLoop arp payload (effectiveMtu arp.dev.mtu) size size 0 s f
      s.ethernetReleaseFrame f

def ICMP_ECHO_REPLY : Nat := 0
def ICMP_ECHO_REQUEST : Nat := 8

/-- `icmpv4_recv`; a request is turned into the reply in place. A checksum is never right for a size below 1. -/
def icmpv4Recv (payload : Block) (size : Int) (sdp : Sdp) : Stack × Block :=
  if ipv4Checksum payload size ≠ 0 then (s, payload)
  else if payload.rd8 0 = ICMP_ECHO_REQUEST then
    let dsp : Sdp := { saddr := sdp.daddr, daddr := sdp.saddr, proto := sdp.proto }
    let c := payload.wr8 0 ICMP_ECHO_REPLY
    let c := c.wr16 2 0
    let c := c.wr16 2 (ipv4Checksum c size)
    (s.ipv4Send heap c size.toNat dsp, c)
  else (s, payload)

/-- The end of `ipv4_recv`: the datagram is handed to its protocol, and ICMP may answer it. -/
def handUp (p : Handed) : Stack × Block :=
  let s := { s with handed := s.handed ++ [p] }
  if p.sdp.proto = 1 then s.icmpv4Recv heap p.data p.size p.sdp else (s, p.data)

/-- `ipv4_recv`. A packet with a wrong checksum is left without a release of its frame. -/
def ipv4Recv (frame : Frame) : Stack :=
  if ipv4Checksum frame.l3 frame.headerSize ≠ 0 then s
  else
    let frame := frame.toL4
    if frame.Fragmented then
      match s.ipv4FragmentCache heap frame with
      | none => { s with fault := true }
      | some (s, none) => s
      | some (s, some fragment) =>
        match s.ipv4FragmentAssemble heap fragment with
        | none => { s with fault := true }
        | some (s, data) => (s.handUp heap ⟨toInt32 fragment.total, data, frame.sdp⟩).1
    else
      let (s, data) := s.handUp heap ⟨frame.l4Size, frame.l4, frame.sdp⟩
      s.ethernetReleaseFrame
        { frame with data := fun i => if i < frame.l4Data then frame.data i else data (i - frame.l4Data) }

def ethernetWorker : Stack :=
  match s.queue with
  | [] => s
  | frame :: queue =>
    let s := { s with queue := queue }
    if frame.type = 0x0806 then s.arpRecv heap frame.dev frame
    else if frame.type = 0x0800 then s.ipv4Recv heap frame
    else s.ethernetReleaseFrame frame

end Stack
end Novino.Net
