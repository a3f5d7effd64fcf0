import Mathlib.Tactic.Common

/-! Console fonts (`kernel/term/psf.c`, `kernel/term/fonts.h`). -/

namespace Novino.Term

/-- `psf->unicode`: nothing, the table of a font of version 1, or the one of a font of version 2. -/
inductive Unicode
  | none
  | words (table : List Nat)
  | bytes (table : List (BitVec 8))

structure Psf where
  num_glyph : Nat
  height : Nat
  width : Nat
  /-- The bits of a row of a glyph, without the padding. -/
  row : Nat → Nat → BitVec 32
  unicode : Unicode

namespace Psf

/-- The loop of `psf_unicode` over a table of version 1: `num` is the glyph that it is at, and `seq` is set within
sequences of characters. -/
def searchWords (num_glyph unicode : Nat) (num : Nat) (seq : Bool) (repl : BitVec 32) : List Nat → BitVec 32
  | [] => repl
  | val :: table =>
    if num_glyph ≤ num then repl
    else if val = 0xffff then searchWords num_glyph unicode (num + 1) false repl table
    else if val = 0xfffe then searchWords num_glyph unicode num true repl table
    else if seq then searchWords num_glyph unicode num seq repl table
    else if val = unicode then BitVec.ofNat 32 num
    else searchWords num_glyph unicode num seq (if val = 0xfffd then BitVec.ofNat 32 num else repl) table

/-- A character in a table of version 2, with the bytes after it. Bytes after the first are not checked. -/
def decode (t ch : BitVec 32) (shift : Nat) : List (BitVec 8) → BitVec 32 × List (BitVec 8)
  | [] => (ch ||| (t >>> shift &&& (0x3F >>> shift)) <<< (6 * shift), [])
  | val :: table =>
    if t &&& 0xC0 = 0xC0 then
      decode (t <<< 1 &&& 0xFF) (ch <<< 6 ||| (val &&& 0x3F).setWidth 32) (shift + 1) table
    else (ch ||| (t >>> shift &&& (0x3F >>> shift)) <<< (6 * shift), val :: table)

def searchBytes (num_glyph : Nat) (unicode : BitVec 32) (num : Nat) (seq : Bool) (repl : BitVec 32) :
    Nat → List (BitVec 8) → BitVec 32
  | 0, _ => repl
  | _, [] => repl
  | fuel + 1, val :: table =>
    if num_glyph ≤ num then repl
    else if val = 0xff then searchBytes num_glyph unicode (num + 1) false repl fuel table
    else if val = 0xfe then searchBytes num_glyph unicode num true repl fuel table
    else if seq then searchBytes num_glyph unicode num seq repl fuel table
    else
      let (ch, table) := if val < 128 then (val.setWidth 32, table) else decode (val.setWidth 32) 0 0 table
      if ch = unicode then BitVec.ofNat 32 num
      else searchBytes num_glyph unicode num seq (if ch = 0xfffd then BitVec.ofNat 32 num else repl) fuel table

/-- `psf_unicode`: the glyph of a character, or the one of the replacement character, or -1. -/
def psfUnicode (psf : Psf) (unicode : BitVec 32) : BitVec 32 :=
  match psf.unicode with
  | .none => if unicode.toNat < psf.num_glyph then unicode else -1
  | .words table => searchWords psf.num_glyph unicode.toNat 0 false (-1) table
  | .bytes table => searchBytes psf.num_glyph unicode 0 false (-1) table.length table

end Psf

/-- The glyphs of `zap_light_8x16`: sixteen rows of eight bits, the first one on top. -/
def zapLightGlyphs : List Nat := [
    0x3e635d7d7b77777f773e000000, 0x7e24242424242422000000, 0x1027f0408107f2040000000, 0x8102040201008007c000000,
    0x10080402040810003e000000, 0x7e7e7e7e7e7e7e00000000, 0x10387cfe7c381000000000, 0x1030101112040812264a0f020200,
    0x1030101112040810264902040f00, 0x7008300972040812264a0f020200, 0x808080808000008080808080000,
    0x242400000000000000000000000000, 0x80830, 0x70808083e080808080808700000, 0x8083e08080808080808000000,
    0x8083e080808083e0808000000, 0x42a4a44810102a55558a000000, 0xf15b5551000000000000000000, 0x4949000000,
    0x8102010080000000000, 0x10080408100000000000, 0x242424120000000000000000000000,
    0x242424480000000000000000000000, 0x2424244800, 0x2424241200, 0x1010100800, 0x423c003c424240404e4242423c000000,
    0x423c00003a46424242463a0202423c, 0x808003e08080808080808083e000000, 0x180808080808083e000000,
    0x3c424240300c0242423c080830, 0x3c4240300c02423c080830, 0, 0x8080808080808000808000000,
    0x242424240000000000000000000000, 0x2424247e24247e242424000000, 0x8083e4948483e0909493e080800,
    0x314a4a34080816292946000000, 0x18242424182845424639000000, 0x80808100000000000000000000000,
    0x408081010101010100808040000, 0x2010100808080808081010200000, 0x8492a1c2a490800000000, 0x808087f08080800000000,
    0x808081000, 0x7e00000000000000, 0x808000000, 0x2020404080810102020000000, 0x3c4242424a524242423c000000,
    0x818280808080808083e000000, 0x3c42420204081020407e000000, 0x3c4242021c020242423c000000,
    0x40c142444447e040404000000, 0x7e4040407c020202423c000000, 0x1c2040407c424242423c000000,
    0x7e020204040808101010000000, 0x3c4242423c424242423c000000, 0x3c424242423e02020438000000, 0x8080000000808000000,
    0x8080000000808081000, 0x40810204020100804000000, 0x7e0000007e0000000000, 0x201008040204081020000000,
    0x3c424202040808000808000000, 0x1c224a565252524e201e000000, 0x18242442427e42424242000000,
    0x7c4242427c424242427c000000, 0x3c42424040404042423c000000, 0x78444242424242424478000000,
    0x7e4040407c404040407e000000, 0x7e4040407c4040404040000000, 0x3c424240404e4242423c000000,
    0x424242427e4242424242000000, 0x3e08080808080808083e000000, 0x1f040404040404444438000000,
    0x42444850606050484442000000, 0x4040404040404040407e000000, 0x41636355554949414141000000,
    0x42626252524a4a464642000000, 0x3c42424242424242423c000000, 0x7c424242427c40404040000000,
    0x3c4242424242425a663c030000, 0x7c4242427c4844444242000000, 0x3c424240300c0242423c000000,
    0x7f080808080808080808000000, 0x4242424242424242423c000000, 0x41414122222214140808000000,
    0x41414149495555636341000000, 0x42422424181824244242000000, 0x41412222140808080808000000,
    0x7e02020408102040407e000000, 0x1c101010101010101010101c0000, 0x20201010080804040202000000,
    0x3808080808080808080808380000, 0x81422410000000000000000000000, 0x7f0000, 0x101010080000000000000000000000,
    0x3c42023e4242463a000000, 0x4040405c6242424242625c000000, 0x3c4240404040423c000000,
    0x202023a4642424242463a000000, 0x3c42427e4040423c000000, 0xe1010107c101010101010000000,
    0x3a46424242463a0202423c, 0x4040405c62424242424242000000, 0x80800180808080808083e000000,
    0x404000c04040404040404044438, 0x4040404448506050484442000000, 0x180808080808080808083e000000,
    0x7649494949494949000000, 0x5c62424242424242000000, 0x3c4242424242423c000000, 0x5c6242424242625c404040,
    0x3a4642424242463a020202, 0x5c62404040404040000000, 0x3c4240300c02423c000000, 0x101010107c10101010100e000000,
    0x424242424242463a000000, 0x4141412222141408000000, 0x4141494949494936000000, 0x4242241818244242000000,
    0x4242424242463a0202423c, 0x7e0204081020407e000000, 0x608080808300808080808060000,
    0x808080808080808080808080000, 0x3008080808060808080808300000, 0x314946000000000000000000000000,
    0x183c3c18000000000000, 0x300c0018242442427e42424242000000, 0xc300018242442427e42424242000000,
    0x18240018242442427e42424242000000, 0x324c0018242442427e42424242000000, 0x24240018242442427e42424242000000,
    0x18242418242442427e42424242000000, 0x1f2848487e484848484f000000, 0x3c42424040404042423c080830,
    0x300c007e4040407c404040407e000000, 0xc30007e4040407c404040407e000000, 0x1824007e4040407c404040407e000000,
    0x2424007e4040407c404040407e000000, 0x300c003e08080808080808083e000000, 0x618003e08080808080808083e000000,
    0x1824003e08080808080808083e000000, 0x2222003e08080808080808083e000000, 0x78444242f24242424478000000,
    0x324c0042626252524a4a464642000000, 0x300c003c42424242424242423c000000, 0xc30003c42424242424242423c000000,
    0x1824003c42424242424242423c000000, 0x324c003c42424242424242423c000000, 0x2424003c42424242424242423c000000,
    0x22140814220000000000, 0x23a44464a4a525262225c400000, 0x300c004242424242424242423c000000,
    0xc30004242424242424242423c000000, 0x1824004242424242424242423c000000, 0x2424004242424242424242423c000000,
    0x6180041412222140808080808000000, 0x40407c424242427c4040000000, 0x38444c50504c4242524c000000,
    0xaa55aa55aa55aa55aa55aa55aa55aa55, 0x8080008080808080808000000, 0x8083e4948484848493e080800,
    0x1c20202078202020227e000000, 0xe11207e207c20110e000000, 0x41412214083e083e0808000000,
    0x2418003c424240300c0242423c000000, 0x1c222018242222120c02221c0000, 0x241800003c4240300c02423c000000,
    0x3c4299a5a1a1a599423c000000, 0x38043c443c007c00000000000000, 0x12244824120000000000, 0x7e02020200000000,
    0x221c2222221c2200000000, 0x3c42b9a5a5b9a9a5423c000000, 0x3c0000000000000000000000000000,
    0x1824241800000000000000000000, 0x808087f080808007f00000000, 0x3844041820407c00000000000000,
    0x3844043804443800000000000000, 0x2418007e02020408102040407e000000, 0x424242424242665a404040,
    0x3e7a7a7a7a3a0a0a0a0a000000, 0x80800000000000000, 0x241800007e0204081020407e000000,
    0x1030501010107c00000000000000, 0x3844444438007c00000000000000, 0x48241224480000000000,
    0x374848484e4848484837000000, 0x3649494f48484936000000, 0x22220041412222140808080808000000,
    0x1010001010204042423c000000, 0xff00000000000000, 0x8080808080808080808080808080808, 0xf08080808080808,
    0xf808080808080808, 0x8080808080808080f00000000000000, 0x808080808080808f800000000000000,
    0x8080808080808080f08080808080808, 0x808080808080808f808080808080808, 0xff08080808080808,
    0x808080808080808ff00000000000000, 0x808080808080808ff08080808080808, 0x88228822882288228822882288228822,
    0xff000000000000000000000000000000, 0xff000000000000000000000000, 0xff000000, 0xff, 0xff00ff000000000000,
    0x14141414141414141414141414141414, 0x1f1017141414141414, 0xfc04f4141414141414,
    0x1414141414141417101f000000000000, 0x14141414141414f404fc000000000000, 0x14141414141414171017141414141414,
    0x14141414141414f404f4141414141414, 0xff00f7141414141414, 0x14141414141414f700ff000000000000,
    0x14141414141414f700f7141414141414, 0xffffffffffffffffffffffffffffffff, 0x81c2a0808080800000000,
    0x80808082a1c0800000000, 0x10207f20100000000000, 0x804fe04080000000000, 0x300c00003c42023e4242463a000000,
    0xc3000003c42023e4242463a000000, 0x182400003c42023e4242463a000000, 0x324c00003c42023e4242463a000000,
    0x242400003c42023e4242463a000000, 0x18242418003c42023e4242463a000000, 0x3649093f48484936000000,
    0x3c4240404040423c080830, 0x300c00003c42427e4040423c000000, 0xc3000003c42427e4040423c000000,
    0x182400003c42427e4040423c000000, 0x242400003c42427e4040423c000000, 0x300c0000180808080808083e000000,
    0xc300000180808080808083e000000, 0x18240000180808080808083e000000, 0x24240000180808080808083e000000,
    0x661864023a46424242423c000000, 0x324c00005c62424242424242000000, 0x300c00003c4242424242423c000000,
    0xc3000003c4242424242423c000000, 0x182400003c4242424242423c000000, 0x324c00003c4242424242423c000000,
    0x242400003c4242424242423c000000, 0x101000007c00001010000000, 0x23c464a4a5252623c400000,
    0x300c0000424242424242463a000000, 0xc300000424242424242463a000000, 0x18240000424242424242463a000000,
    0x24240000424242424242463a000000, 0xc3000004242424242463a0202423c, 0x4040405c6242424242625c404040,
    0x242400004242424242463a0202423c]

/-- The characters of the glyphs of `zap_light_8x16`: those of a glyph end with 65535. -/
def zapLightUnicode : List Nat := [
    65533, 65535, 960, 65535, 8800, 65535, 8804, 65535, 8805, 65535, 9632, 9644, 9646, 9724, 9726, 11035, 8718, 65535,
    9670, 9830, 11045, 11047, 65535, 188, 65535, 189, 65535, 190, 65535, 166, 65535, 168, 65535, 184, 65535, 402,
    65535, 8224, 65535, 8225, 65535, 8240, 65535, 8482, 65535, 8230, 65535, 8249, 65535, 8250, 65535, 8220, 8223,
    8246, 65535, 8221, 698, 733, 750, 8243, 65535, 8222, 65535, 11842, 65535, 11841, 718, 65535, 286, 65535, 287,
    65535, 304, 65535, 305, 65535, 350, 65535, 351, 65535, 32, 160, 8192, 8193, 8194, 8195, 8196, 8197, 8198, 8199,
    8200, 8201, 8202, 8239, 8287, 65535, 33, 65535, 34, 65535, 35, 65535, 36, 65535, 37, 65535, 38, 65535, 39, 180,
    697, 700, 714, 8217, 8242, 65535, 40, 65535, 41, 65535, 42, 8270, 8727, 65535, 43, 65535, 44, 719, 8218, 65535,
    45, 173, 8208, 8209, 8210, 8211, 8259, 8722, 65535, 46, 8228, 65535, 47, 8260, 8725, 65535, 48, 65535, 49, 65535,
    50, 65535, 51, 65535, 52, 65535, 53, 65535, 54, 65535, 55, 65535, 56, 65535, 57, 65535, 58, 8758, 65535, 59,
    65535, 60, 65535, 61, 11840, 65535, 62, 65535, 63, 65535, 64, 65535, 65, 65535, 66, 65535, 67, 65535, 68, 65535,
    69, 65535, 70, 65535, 71, 65535, 72, 65535, 73, 65535, 74, 65535, 75, 8490, 65535, 76, 65535, 77, 65535, 78,
    65535, 79, 65535, 80, 65535, 81, 65535, 82, 65535, 83, 65535, 84, 65535, 85, 65535, 86, 65535, 87, 65535, 88,
    65535, 89, 65535, 90, 65535, 91, 65535, 92, 10741, 65535, 93, 65535, 94, 708, 710, 8963, 65535, 95, 65535, 96,
    699, 701, 715, 8216, 8219, 8245, 65535, 97, 65535, 98, 65535, 99, 65535, 100, 65535, 101, 65535, 102, 65535, 103,
    65535, 104, 65535, 105, 65535, 106, 65535, 107, 65535, 108, 65535, 109, 65535, 110, 65535, 111, 65535, 112, 65535,
    113, 65535, 114, 65535, 115, 65535, 116, 65535, 117, 65535, 118, 65535, 119, 65535, 120, 65535, 121, 65535, 122,
    65535, 123, 65535, 124, 8739, 65535, 125, 65535, 126, 732, 65535, 8226, 8729, 9679, 65535, 192, 65535, 193, 65535,
    194, 65535, 195, 65535, 196, 65535, 197, 8491, 65535, 198, 65535, 199, 65535, 200, 65535, 201, 65535, 202, 65535,
    203, 65535, 204, 65535, 205, 65535, 206, 65535, 207, 65535, 208, 272, 65535, 209, 65535, 210, 65535, 211, 65535,
    212, 65535, 213, 65535, 214, 65535, 215, 65535, 216, 65535, 217, 65535, 218, 65535, 219, 65535, 220, 65535, 221,
    65535, 222, 65535, 223, 65535, 9618, 65535, 161, 65535, 162, 65535, 163, 65535, 8364, 65535, 165, 65535, 352,
    65535, 167, 65535, 353, 65535, 169, 65535, 170, 65535, 171, 65535, 172, 65535, 164, 65535, 174, 65535, 175, 713,
    65535, 176, 730, 65535, 177, 65535, 178, 65535, 179, 65535, 381, 65535, 181, 956, 65535, 182, 65535, 183, 8231,
    8901, 11825, 65535, 382, 65535, 185, 65535, 186, 65535, 187, 65535, 338, 65535, 339, 65535, 376, 65535, 191,
    65535, 9472, 8212, 8213, 9135, 65535, 9474, 65535, 9484, 9581, 65535, 9488, 9582, 65535, 9492, 9584, 65535, 9496,
    9583, 65535, 9500, 65535, 9508, 65535, 9516, 65535, 9524, 65535, 9532, 65535, 9617, 65535, 9146, 8254, 65535,
    9147, 65535, 9148, 65535, 9149, 65535, 9552, 9473, 65535, 9553, 9475, 65535, 9556, 9487, 65535, 9559, 9491, 65535,
    9562, 9495, 65535, 9565, 9499, 65535, 9568, 9507, 65535, 9571, 9515, 65535, 9574, 9523, 65535, 9577, 9531, 65535,
    9580, 9547, 65535, 9608, 65535, 8593, 65535, 8595, 65535, 8592, 65535, 8594, 65535, 224, 65535, 225, 65535, 226,
    65535, 227, 65535, 228, 65535, 229, 65535, 230, 65535, 231, 65535, 232, 65535, 233, 65535, 234, 65535, 235, 65535,
    236, 65535, 237, 65535, 238, 65535, 239, 65535, 240, 65535, 241, 65535, 242, 65535, 243, 65535, 244, 65535, 245,
    65535, 246, 65535, 247, 65535, 248, 65535, 249, 65535, 250, 65535, 251, 65535, 252, 65535, 253, 65535, 254, 65535,
    255, 65535]

def zapLight : Psf where
  num_glyph := 256
  height := 16
  width := 8
  row g i := BitVec.ofNat 32 (zapLightGlyphs.getD g 0 >>> (8 * (15 - i)) % 256)
  unicode := .words zapLightUnicode

end Novino.Term
