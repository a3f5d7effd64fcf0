import Mathlib.Tactic.Common

/-! What the rings of an xHCI controller hold (`kernel/usb/xhcispecs.h`). -/

namespace Novino.Usb

structure Trb where
  address : BitVec 64 := 0
  status : BitVec 32 := 0
  flags : BitVec 32 := 0
deriving DecidableEq, Repr

def TRB_CYCLE : BitVec 32 := 1
def TRB_ENT : BitVec 32 := 2
def TRB_CHAIN : BitVec 32 := 16
def TRB_IOC : BitVec 32 := 32

def TRB_TYPE_NORMAL : BitVec 32 := 1
def TRB_TYPE_LINK : BitVec 32 := 6
def TRB_TYPE_EVENT_DATA : BitVec 32 := 7
def TRB_TYPE_TRANSFER : BitVec 32 := 32
def TRB_TYPE_COMMAND_COMPLETION : BitVec 32 := 33
def TRB_TYPE_PORT_STATUS_CHANGE : BitVec 32 := 34

def Trb.type (trb : Trb) : BitVec 32 := trb.flags >>> 10 &&& 0x3F

end Novino.Usb
