import BrilKit.Data.Decimal
import BrilKit.Data.Quoted
import BrilKit.Fault
import BrilKit.Text.Letters

/-!
# Integer numerals

A numeral is a run of digits, in which single underscores may stand between digits, with an
optional sign in front and blanks around it.
-/

namespace BrilKit

namespace Numeral

def digitRun : List Char → Option (List Char)
  | [] => none
  | [c] => if c.isDigit then some [c] else none
  | c :: '_' :: cs => if c.isDigit then (digitRun cs).map (c :: ·) else none
  | c :: cs => if c.isDigit then (digitRun cs).map (c :: ·) else none

def read? (s : String) : Option Int :=
  let cs := Letters.strip s.toList
  let (negative, cs) :=
    match cs with
    | '-' :: r => (true, r)
    | '+' :: r => (false, r)
    | r => (false, r)
  (digitRun cs).map fun ds =>
    let n : Int := Decimal.digitsValue ds
    if negative then -n else n

def read (s : String) : Outcome Int :=
  match read? s with
  | some i => .ok i
  | none => .error (.notNumeral (Quoted.quote s))

def isPlain (s : String) : Bool := s != "" && s.toList.all Char.isDigit

end Numeral

end BrilKit
