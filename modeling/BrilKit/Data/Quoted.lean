/-!
# Quoted text

The quoted form of a text stands between single quotes, or between double quotes when the text
has a single quote and no double one. Backslashes, the enclosing quote and characters that do not
print are written as escapes.
-/

namespace BrilKit

namespace Quoted

def hex (width n : Nat) : List Char :=
  let ds := Nat.toDigits 16 n
  List.replicate (width - ds.length) '0' ++ ds

/-- Whether a character stands for itself in quoted text. Control characters, separators other
than the blank, and code points that are not characters do not. -/
def prints (c : Char) : Bool :=
  let n := c.toNat
  if n < 0x7f then 0x20 ≤ n
  else
    !(n ≤ 0xa0 || n = 0xad || n = 0x1680 || (0x2000 ≤ n && n ≤ 0x200f)
      || (0x2028 ≤ n && n ≤ 0x202f) || (0x205f ≤ n && n ≤ 0x206f) || n = 0x3000
      || (0xe000 ≤ n && n ≤ 0xf8ff) || n = 0xfeff || (0xfff0 ≤ n && n ≤ 0xfffb)
      || n = 0xfffe || n = 0xffff || 0xe0000 ≤ n)

def escape (quote : Char) (c : Char) : List Char :=
  if c = quote then ['\\', c]
  else if c = '\\' then ['\\', '\\']
  else if c = '\n' then ['\\', 'n']
  else if c = '\r' then ['\\', 'r']
  else if c = '\t' then ['\\', 't']
  else if prints c then [c]
  else if c.toNat < 0x100 then '\\' :: 'x' :: hex 2 c.toNat
  else if c.toNat < 0x10000 then '\\' :: 'u' :: hex 4 c.toNat
  else '\\' :: 'U' :: hex 8 c.toNat

def quote (s : String) : String :=
  let cs := s.toList
  let q := if cs.contains '\'' && !cs.contains '"' then '"' else '\''
  String.ofList (q :: cs.flatMap (escape q) ++ [q])

end Quoted

end BrilKit
