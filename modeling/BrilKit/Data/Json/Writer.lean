import BrilKit.Data.Datum

/-!
# Writing JSON text

Two layouts: `Json.compact` on one line, and `Json.pretty`, which puts every item on a line of its
own, two blanks deeper than its container, and lists the fields of a record in ascending order.
-/

namespace BrilKit

namespace Json

def unitEscape (n : Nat) : List Char := '\\' :: 'u' :: Quoted.hex 4 n

def escape (c : Char) : List Char :=
  let n := c.toNat
  if c = '"' then ['\\', '"']
  else if c = '\\' then ['\\', '\\']
  else if c = '\n' then ['\\', 'n']
  else if c = '\r' then ['\\', 'r']
  else if c = '\t' then ['\\', 't']
  else if n = 8 then ['\\', 'b']
  else if n = 12 then ['\\', 'f']
  else if n < 0x20 then unitEscape n
  else if n < 0x80 then [c]
  else if n < 0x10000 then unitEscape n
  else
    let m := n - 0x10000
    unitEscape (0xd800 + m / 0x400) ++ unitEscape (0xdc00 + m % 0x400)

def text (s : String) : String := String.ofList ('"' :: s.toList.flatMap escape ++ ['"'])

def number (x : Float) : String :=
  match Binary64.view x with
  | .nan => "NaN"
  | .infinite negative => if negative then "-Infinity" else "Infinity"
  | .finite .. => Decimal.ofFloat x

mutual

def sorted : Datum → Datum
  | .list xs => .list (sortedList xs)
  | .record fs => .record ((sortedFields fs).mergeSort fun a b => decide (a.1 ≤ b.1))
  | d => d

/-- `sorted` on every item. -/
def sortedList : List Datum → List Datum
  | [] => []
  | x :: xs => sorted x :: sortedList xs

/-- `sorted` on every field. -/
def sortedFields : List (String × Datum) → List (String × Datum)
  | [] => []
  | (k, x) :: fs => (k, sorted x) :: sortedFields fs

end

mutual

def compact : Datum → String
  | .null => "null"
  | .bool b => if b then "true" else "false"
  | .int i => toString i
  | .float x => number x
  | .str s => text s
  | .list xs => "[" ++ ",".intercalate (compactList xs) ++ "]"
  | .record fs => "\x7b" ++ ",".intercalate (compactFields fs) ++ "\x7d"

def compactList : List Datum → List String
  | [] => []
  | x :: xs => compact x :: compactList xs

def compactFields : List (String × Datum) → List String
  | [] => []
  | (k, x) :: fs => (text k ++ ":" ++ compact x) :: compactFields fs

end

def newline (depth : Nat) : String := "\n" ++ String.ofList (List.replicate (2 * depth) ' ')

def enclose (opening closing : String) (depth : Nat) (parts : List String) : String :=
  match parts with
  | [] => opening ++ closing
  | parts =>
    let sep := newline (depth + 1)
    opening ++ sep ++ ("," ++ sep).intercalate parts ++ newline depth ++ closing

mutual

def indented (depth : Nat) : Datum → String
  | .null => "null"
  | .bool b => if b then "true" else "false"
  | .int i => toString i
  | .float x => number x
  | .str s => text s
  | .list xs => enclose "[" "]" depth (indentedList depth xs)
  | .record fs => enclose "\x7b" "\x7d" depth (indentedFields depth fs)

def indentedList (depth : Nat) : List Datum → List String
  | [] => []
  | x :: xs => indented (depth + 1) x :: indentedList depth xs

def indentedFields (depth : Nat) : List (String × Datum) → List String
  | [] => []
  | (k, x) :: fs => (text k ++ ": " ++ indented (depth + 1) x) :: indentedFields depth fs

end

/-- JSON text over several lines with the fields of records in ascending order. -/
def pretty (d : Datum) : String := indented 0 (sorted d)

end Json

end BrilKit
