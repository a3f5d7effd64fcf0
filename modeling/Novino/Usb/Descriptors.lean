import Mathlib.Tactic.Common

/-! The configuration of a USB device in `desc_buf` and the functions that walk over its descriptors
    (`kernel/usb/usb.c`). A pointer is an offset in `desc_buf`, and `none` is the null pointer. -/

namespace Novino.Usb.Descriptors

def DESC_BUF_SIZE : Nat := 512

def descCfg : Nat := 18

def USB_DESCRIPTOR_INTERFACE : BitVec 8 := 4

def USB_DESCRIPTOR_ENDPOINT : BitVec 8 := 5

abbrev Bytes := Nat → BitVec 8

def wTotalLength (mem : Bytes) (cfg : Nat) : Nat := (mem (cfg + 2)).toNat + 256 * (mem (cfg + 3)).toNat

variable (buf : Bytes)

/-- `usb_get_config_descriptor`, for the bytes `desc` of the transfer buffer; `none` if the copy runs over the end. -/
def usbGetConfigDescriptor (desc : Bytes) : Option Bytes :=
  if descCfg + wTotalLength desc 0 ≤ DESC_BUF_SIZE then
    some fun i => if descCfg ≤ i ∧ i < descCfg + wTotalLength desc 0 then desc (i - descCfg) else buf i
  else none

inductive Walk
  | returns (ptr : Option Nat)
  | outside
  | running
deriving DecidableEq, Repr

def nextBase (ptr : Option Nat) : Nat := ptr.getD descCfg + (buf (ptr.getD descCfg)).toNat

def descEnd : Nat := descCfg + wTotalLength buf descCfg

def usbNextDescriptor (ptr : Option Nat) : Walk :=
  if DESC_BUF_SIZE ≤ ptr.getD descCfg then .outside
  else if nextBase buf ptr < descEnd buf then
    if DESC_BUF_SIZE ≤ nextBase buf ptr + 1 then .outside
    else if buf (nextBase buf ptr + 1) ≠ 0 then .returns (some (nextBase buf ptr))
    else .returns none
  else .returns none

/-- The loop `while(ptr = next(ptr), ptr)`. Its body goes on with the loop if it gives `none`. -/
def walkLoop (next : Option Nat → Walk) (body : Nat → Option Walk) : Nat → Option Nat → Walk
  | 0, _ => .running
  | n + 1, ptr =>
    match next ptr with
    | .returns (some p) => (body p).getD (walkLoop next body n (some p))
    | w => w

def findInterfaceDescriptor : Nat → Option Nat → Walk :=
  walkLoop (usbNextDescriptor buf) fun p =>
    if buf (p + 1) = USB_DESCRIPTOR_INTERFACE then some (.returns (some p)) else none

/-- The address of an endpoint is at offset 2, and its attributes are at offset 3. -/
def findEndpointDescriptor (type dir : BitVec 32) : Nat → Option Nat → Walk :=
  walkLoop (usbNextDescriptor buf) fun p =>
    if buf (p + 1) = USB_DESCRIPTOR_ENDPOINT then
      if DESC_BUF_SIZE ≤ p + 3 then some .outside
      else if (buf (p + 2) >>> 7).setWidth 32 = dir ∧ (buf (p + 3) &&& 3).setWidth 32 = type then
        some (.returns (some p))
      else none
    else if buf (p + 1) = USB_DESCRIPTOR_INTERFACE then some (.returns none)
    else none

end Novino.Usb.Descriptors
