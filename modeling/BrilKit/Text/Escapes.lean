/-!
# Character constants

The control characters that have a written form of their own inside a character constant.
-/

namespace BrilKit

namespace Escapes

def controls : List (Char × Nat) :=
  [('0', 0), ('a', 7), ('b', 8), ('t', 9), ('n', 10), ('v', 11), ('f', 12), ('r', 13)]

def decode? (letter : Char) : Option Char := (controls.lookup letter).map Char.ofNat

def letter? (c : Char) : Option Char := (controls.find? fun e => e.2 = c.toNat).map Prod.fst

def encode (c : Char) : String :=
  match letter? c with
  | some l => String.ofList ['\\', l]
  | none => String.singleton c

end Escapes

end BrilKit
