/-!
# Positions in a text

A cursor is the rest of a text together with the row and column where it starts. Both count from
one; a column counts characters since the last line end.
-/

namespace BrilKit

structure Cursor where
  rest : List Char
  row : Nat := 1
  col : Nat := 1
deriving Repr, DecidableEq

namespace Cursor

def ofText (s : String) : Cursor := { rest := s.toList }

def advance : Nat → Cursor → Cursor
  | 0, c => c
  | n + 1, c =>
    match c.rest with
    | [] => c
    | ch :: cs =>
      advance n (if ch = '\n' then ⟨cs, c.row + 1, 1⟩ else ⟨cs, c.row, c.col + 1⟩)

def isBlank (ch : Char) : Bool :=
  ch = ' ' || ch = '\t' || ch = '\n' || ch = '\r' || ch = Char.ofNat 12

/-- Skip blanks, and comments from a `#` to the end of its line. -/
def skipFrom (comment : Bool) : List Char → Nat → Nat → Cursor
  | [], row, col => ⟨[], row, col⟩
  | ch :: cs, row, col =>
    if ch = '\n' then skipFrom false cs (row + 1) 1
    else if comment then skipFrom true cs row (col + 1)
    else if isBlank ch then skipFrom false cs row (col + 1)
    else if ch = '#' then skipFrom true cs row (col + 1)
    else ⟨ch :: cs, row, col⟩

def skip (c : Cursor) : Cursor := skipFrom false c.rest c.row c.col

end Cursor

end BrilKit
