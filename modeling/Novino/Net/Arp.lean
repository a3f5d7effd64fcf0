import Novino.Net.Ethernet

/-! ARP (`kernel/net/arp.c`). The age of an entry is left out, since nothing looks at it. -/

namespace Novino.Net.Stack

variable (s : Stack) (heap : Want → Bool) (dev : Netdev)

def ARP_HTYPE_ETHERNET : Nat := 0x0100
def ARP_PTYPE_IPV4 : Nat := 0x0008
def ARP_REQUEST : Nat := 0x0100
def ARP_REPLY : Nat := 0x0200

def ARP_PACKET : Nat := 28

def be32 (b : Block) (o : Nat) : Nat :=
  ((b.rd8 o * 256 + b.rd8 (o + 1)) * 256 + b.rd8 (o + 2)) * 256 + b.rd8 (o + 3)

def wrBe32 (b : Block) (o v : Nat) : Block :=
  (((b.wr8 o (v / 16777216)).wr8 (o + 1) (v / 65536)).wr8 (o + 2) (v / 256)).wr8 (o + 3) v

def arpLookup (tpa : Nat) : Option Arp := s.table.find? (·.ip = tpa)

/-- `arp_insert`. Without memory `kzalloc` clears a null pointer. -/
def arpInsert (tpa : Nat) (tha : Block) : Stack :=
  if (s.arpLookup tpa).isSome then s
  else if heap .arp then { s with table := ⟨tpa, tha, dev⟩ :: s.table }
  else { s with fault := true }

def arpSendReply (frame : Frame) : Stack × Frame :=
  let old := frame.l3
  let req := old.wr16 6 ARP_REPLY
  let req := req.copy 24 (old.drop 14) 4
  let req := req.copy 14 (old.drop 24) 4
  let req := req.copy 18 (old.drop 8) 6
  let req := req.copy 8 dev.mac 6
  s.ethernetSend dev (old.drop 8) 0x0806 (frame.setL3 req)

/-- `arp_send_request`. Without a frame the request is written through a null pointer. -/
def arpSendRequest (spa tpa : Nat) : Stack :=
  match s.ethernetRequestFrame heap with
  | none => { s with fault := true }
  | some (frame, s) =>
    let req := frame.l3.wr16 0 ARP_HTYPE_ETHERNET
    let req := req.wr8 4 6
    let req := req.wr16 2 ARP_PTYPE_IPV4
    let req := req.wr8 5 4
    let req := req.wr16 6 ARP_REQUEST
    let req := wrBe32 req 14 spa
    let req := wrBe32 req 24 tpa
    let req := req.copy 8 dev.mac 6
    let req := req.copy 18 (fun _ => 0xFF) 6
    let frame := { frame.setL3 req with l3Size := ARP_PACKET }
    let (s, frame) := s.ethernetSend dev (fun _ => 0xFF) 0x0806 frame
    s.ethernetReleaseFrame frame

/-- `arp_recv`. A packet of another kind is left without a release of its frame. -/
def arpRecv (frame : Frame) : Stack :=
  let arp := frame.l3
  if arp.rd16 0 ≠ ARP_HTYPE_ETHERNET then s
  else if arp.rd16 2 ≠ ARP_PTYPE_IPV4 then s
  else
    let spa := be32 arp 14
    let tpa := be32 arp 24
    if arp.rd16 6 = ARP_REQUEST then
      let s := s.arpInsert heap dev spa (arp.drop 8)
      if tpa ∈ dev.ipv4 then
        let (s, frame) := s.arpSendReply dev frame
        s.ethernetReleaseFrame frame
      else s.ethernetReleaseFrame frame
    else if arp.rd16 6 = ARP_REPLY then (s.arpInsert heap dev spa (arp.drop 8)).ethernetReleaseFrame frame
    else s.ethernetReleaseFrame frame

end Novino.Net.Stack
