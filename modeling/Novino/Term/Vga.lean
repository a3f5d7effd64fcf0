import Novino.Term.Console

/-! Text mode (`kernel/term/vga.c`): a word for each character, in the buffer of the console and, while the console is
    active, in the memory that is displayed. -/

namespace Novino.Term

structure Vga where
  attr : BitVec 8
  bufptr : Nat → BitVec 16
  memptr : Nat → BitVec 16

def memcpyw (buf : Nat → BitVec 16) (dst src : Nat) : Nat → Nat → BitVec 16
  | 0 => buf
  | len + 1 => memcpyw (Function.update buf dst (buf src)) (dst + 1) (src + 1) len

def memsetw (buf : Nat → BitVec 16) (dst : Nat) (val : BitVec 16) : Nat → Nat → BitVec 16
  | 0 => buf
  | len + 1 => memsetw (Function.update buf dst val) (dst + 1) val len

def flushw (mem buf : Nat → BitVec 16) (len : Nat) : Nat → BitVec 16 := fun i => if i < len then buf i else mem i

namespace Vga

def word (attr : BitVec 8) (ch : BitVec 32) : BitVec 16 := (attr.setWidth 32 <<< 8 ||| ch).setWidth 16

def exchange (tmp : BitVec 16) : BitVec 16 := (tmp &&& 0xF000) >>> 4 ||| (tmp &&& 0x0F00) <<< 4 ||| (tmp &&& 0x00FF)

def recolour (attr : BitVec 8) (fg bg : BitVec 32) : BitVec 8 :=
  let attr := attr.setWidth 32
  let attr := if BitVec.sle 0 fg ∧ BitVec.sle fg 15 then attr &&& 0xF0 ||| fg else attr
  let attr := if BitVec.sle 0 bg ∧ BitVec.sle bg 15 then attr &&& 0x0F ||| bg <<< 4 else attr
  attr.setWidth 8

variable (c : Console Vga)

def pos : Nat := ((c.pos_y * c.max_x + c.pos_x).setWidth 16).toNat

def size (rows : BitVec 32) : Nat := ((c.max_x * rows).setWidth 16).toNat

def store (i : Nat) (tmp : BitVec 16) : Vga :=
  { c.display with
    bufptr := Function.update c.display.bufptr i tmp
    memptr := if c.active then Function.update c.display.memptr i tmp else c.display.memptr }

def displayAll (buf : Nat → BitVec 16) : Vga :=
  { c.display with
    bufptr := buf
    memptr := if c.active then flushw c.display.memptr buf (size c c.max_y) else c.display.memptr }

def putch (ch : BitVec 32) : Vga := store c (pos c) (word c.display.attr ch)

def toggleCursor : Vga := store c (pos c) (exchange (c.display.bufptr (pos c)))

def scroll : Vga :=
  let size := size c (c.max_y - 1)
  let buf := memcpyw c.display.bufptr 0 c.max_x.toNat size
  displayAll c (memsetw buf size (word c.display.attr 0x20) c.max_x.toNat)

def clear : Vga := displayAll c (memsetw c.display.bufptr 0 (word c.display.attr 0x20) (size c c.max_y))

def setColor (fg bg : BitVec 32) : Vga := { c.display with attr := recolour c.display.attr fg bg }

def refresh : Vga := displayAll c c.display.bufptr

end Vga

def vga : Display Vga where
  putch := Vga.putch
  scroll := Vga.scroll
  clear := Vga.clear
  toggleCursor := Vga.toggleCursor
  setColor := Vga.setColor
  refresh := Vga.refresh

def vgaInit (flags : BitVec 32) (active : Bool) (bufptr memptr : Nat → BitVec 16) : Console Vga where
  flags
  pos_x := 0
  pos_y := 0
  max_x := 80
  max_y := 25
  active
  display := { attr := 0x0F, bufptr, memptr }

end Novino.Term
