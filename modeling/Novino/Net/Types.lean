import Novino.Lib.Bytes

/-! Network buffers and the data of the network code (`kernel/net`). The free frames, the frames that wait for the
    worker, the incomplete datagrams, the ARP table and the routes are lists, as the kernel's lists are. -/

namespace Novino.Net

def swap16 (x : Nat) : Nat := x % 256 * 256 + x / 256 % 256

def swap32 (x : Nat) : Nat :=
  x % 256 * 16777216 + x / 256 % 256 * 65536 + x / 65536 % 256 * 256 + x / 16777216 % 256

def wrap32 (n : Int) : Nat := (n % 4294967296).toNat

def toInt32 (n : Nat) : Int := if n < 2147483648 then n else n - 4294967296

def toSize (n : Int) : Nat := (n % 18446744073709551616).toNat

def ETH_HLEN : Nat := 14
def ETH_FCS_LEN : Nat := 4

def FRAME_SIZE : Nat := 1516

/-- `netdev_t`. An IPv4 packet with eight bytes of payload fits into the MTU. -/
structure Netdev where
  mtu : Nat
  mac : Block
  ipv4 : List Nat
  mtu_le : 28 ≤ mtu

instance : Inhabited Netdev := ⟨⟨28, Block.zero, [], Nat.le_refl 28⟩⟩

/-- `frame_t`, with its address. Layer 2 starts at the start of the buffer and layer 3 behind the header of it. -/
structure Frame where
  addr : Nat
  type : Nat := 0
  l2Size : Int := 0
  l3Size : Int := 0
  l4Size : Int := 0
  l4Data : Nat := 0
  dev : Netdev := default
  data : Block := Block.zero

namespace Frame

def l3 (f : Frame) : Block := f.data.drop ETH_HLEN

def setL3 (f : Frame) (h : Block) : Frame :=
  { f with data := fun i => if i < ETH_HLEN then f.data i else h (i - ETH_HLEN) }

def l4 (f : Frame) : Block := f.data.drop f.l4Data

end Frame

structure Packet where
  data : Block
  size : Nat

structure Sdp where
  saddr : Nat
  daddr : Nat
  proto : Nat
deriving DecidableEq, Repr

structure Handed where
  size : Int
  data : Block
  sdp : Sdp

structure Arp where
  ip : Nat
  mac : Block
  dev : Netdev

structure Route where
  dev : Netdev
  subnet : Nat
  pfx : Nat
  mask : Nat
  nexthop : Nat

/-- What the fragments of one datagram have in common. -/
structure Key where
  ident : Nat
  saddr : Nat
  daddr : Nat
  proto : Nat
deriving DecidableEq, Repr

/-- `ipv4_fragment_t`: an incomplete datagram. -/
structure Fragment where
  key : Key
  tally : Nat := 0
  total : Nat := 0
  frames : List Frame := []

/-- What memory is asked for. -/
inductive Want where
  | frame
  | arp
  | fragment
  | data (size : Nat)

/-- The state of the network stack: the free frames, those that wait for the worker, the tables of ARP, of routes and
of unfinished datagrams, and what was sent and handed up. `fault` says that a null pointer was used. -/
structure Stack where
  frames : List Frame := []
  queue : List Frame := []
  table : List Arp := []
  routes : List Route := []
  fragments : List Fragment := []
  /-- The number of frames that have been made, which gives the address of the next one. -/
  made : Nat := 0
  sent : List Packet := []
  handed : List Handed := []
  fault : Bool := false

end Novino.Net
