/-!
# Classes of characters beyond ASCII

Tables for the letters and digits of the common scripts, and the lower case of those that have
one. The tables cover the scripts of the Basic Multilingual Plane in wide use.
-/

namespace BrilKit

namespace Letters

def alnumRanges : List (Nat × Nat) :=
  [(0xaa, 0xaa), (0xb2, 0xb3), (0xb5, 0xb5), (0xb9, 0xba), (0xbc, 0xbe), (0xc0, 0xd6),
    (0xd8, 0xf6), (0xf8, 0x2c1), (0x2c6, 0x2d1), (0x2e0, 0x2e4), (0x370, 0x374), (0x376, 0x377),
    (0x37a, 0x37d), (0x37f, 0x37f), (0x386, 0x386), (0x388, 0x3ff), (0x400, 0x481), (0x48a, 0x52f),
    (0x531, 0x556), (0x560, 0x588), (0x5d0, 0x5ea), (0x620, 0x64a), (0x660, 0x669), (0x66e, 0x66f),
    (0x671, 0x6d3), (0x6f0, 0x6fc), (0x904, 0x939), (0x966, 0x96f), (0xe01, 0xe30), (0xe50, 0xe59),
    (0x10a0, 0x10ff), (0x1100, 0x1248), (0x13a0, 0x13f5), (0x1e00, 0x1fbc), (0x2070, 0x2071),
    (0x2074, 0x2079), (0x207f, 0x2089), (0x2090, 0x209c), (0x2102, 0x2102), (0x210a, 0x2113),
    (0x2115, 0x2115), (0x2119, 0x211d), (0x2124, 0x2124), (0x2126, 0x2126), (0x2128, 0x2128),
    (0x212a, 0x212d), (0x212f, 0x2139), (0x2150, 0x2189), (0x2460, 0x249b), (0x24ea, 0x24ff),
    (0x2776, 0x2793), (0x2c00, 0x2ce4), (0x3005, 0x3007), (0x3021, 0x3029), (0x3031, 0x3035),
    (0x3041, 0x3096), (0x309d, 0x309f), (0x30a1, 0x30fa), (0x30fc, 0x30ff), (0x3105, 0x312f),
    (0x3131, 0x318e), (0x3400, 0x4dbf), (0x4e00, 0xa48c), (0xa640, 0xa66e), (0xac00, 0xd7a3),
    (0xf900, 0xfa6d), (0xfb00, 0xfb06), (0xff10, 0xff19), (0xff21, 0xff3a), (0xff41, 0xff5a),
    (0xff66, 0xffbe), (0x10000, 0x100fa), (0x10400, 0x1049d), (0x1d400, 0x1d7ff),
    (0x20000, 0x2a6df), (0x2a700, 0x2ebe0), (0x30000, 0x3134a)]

def isAlnum (c : Char) : Bool :=
  if c.toNat < 0x80 then c.isAlphanum
  else alnumRanges.any fun r => r.1 ≤ c.toNat && c.toNat ≤ r.2

def allAlnum (s : String) : Bool := s != "" && s.toList.all isAlnum

def lower (c : Char) : Char :=
  let n := c.toNat
  if n < 0x80 then c.toLower
  else if (0xc0 ≤ n && n ≤ 0xde && n != 0xd7) || (0x391 ≤ n && n ≤ 0x3ab && n != 0x3a2)
      || (0x410 ≤ n && n ≤ 0x42f) then Char.ofNat (n + 32)
  else if 0x400 ≤ n && n ≤ 0x40f then Char.ofNat (n + 80)
  else if ((0x100 ≤ n && n ≤ 0x12f) || (0x132 ≤ n && n ≤ 0x137) || (0x14a ≤ n && n ≤ 0x177))
      && n % 2 = 0 then Char.ofNat (n + 1)
  else if ((0x139 ≤ n && n ≤ 0x148) || (0x179 ≤ n && n ≤ 0x17e)) && n % 2 = 1 then
    Char.ofNat (n + 1)
  else c

def lowerText (s : String) : String := s.map lower

def isBlank (c : Char) : Bool :=
  let n := c.toNat
  (9 ≤ n && n ≤ 13) || (0x1c ≤ n && n ≤ 0x20) || n = 0x85 || n = 0xa0 || n = 0x1680
    || (0x2000 ≤ n && n ≤ 0x200a) || n = 0x2028 || n = 0x2029 || n = 0x202f || n = 0x205f
    || n = 0x3000

def strip (cs : List Char) : List Char :=
  ((cs.dropWhile isBlank).reverse.dropWhile isBlank).reverse

end Letters

end BrilKit
