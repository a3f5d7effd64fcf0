import Novino.Net.Types

/-! Ethernet frames (`kernel/net/ethernet.c`). Whether the heap has memory is given to each call. -/

namespace Novino.Net

/-- What `ethernet_recv` makes of a frame. The size includes the checksum behind the data. -/
def Frame.fill (frame : Frame) (dev : Netdev) (data : Block) (size : Nat) : Frame :=
  { frame with
    data := frame.data.copy 0 data size
    dev := dev
    type := swap16 (data.rd16 12)
    l2Size := size
    l3Size := size - ETH_HLEN - ETH_FCS_LEN }

namespace Stack

variable (s : Stack) (heap : Want → Bool)

def ethernetRequestFrame : Option (Frame × Stack) :=
  match s.frames with
  | frame :: frames => some (frame, { s with frames := frames })
  | [] => if heap .frame then some ({ addr := s.made }, { s with made := s.made + 1 }) else none

def ethernetReleaseFrame (frame : Frame) : Stack := { s with frames := s.frames ++ [frame] }

/-- `ethernet_recv` of `size` bytes. Without a frame the bytes are written through a null pointer. -/
def ethernetRecv (dev : Netdev) (data : Block) (size : Nat) : Stack :=
  match s.ethernetRequestFrame heap with
  | none => { s with fault := true }
  | some (frame, s) => { s with queue := s.queue ++ [frame.fill dev data size] }

def ethernetSend (dev : Netdev) (dmac : Block) (type : Nat) (frame : Frame) : Stack × Frame :=
  let data := frame.data.wr16 12 (swap16 type)
  let data := data.copy 0 dmac 6
  let data := data.copy 6 dev.mac 6
  ({ s with sent := s.sent ++ [⟨data, (frame.l3Size + ETH_HLEN).toNat⟩] }, { frame with data := data })

end Stack
end Novino.Net
