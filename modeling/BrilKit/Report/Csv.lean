import BrilKit.Data.Table

/-!
# Tables of comma-separated values

A record is a line. A field that begins with a double quote extends to the next single one; in it a
quote is written twice, and commas and line ends are part of the text.
-/

namespace BrilKit

namespace Csv

inductive Place where
  | recordStart
  | fieldStart
  | plain
  | quoted
  | closing
  | lineEnd

/-- The state of a reader; lists hold the latest item first. -/
structure Reader where
  place : Place := .recordStart
  field : List Char := []
  fields : List String := []
  records : List (List String) := []

namespace Reader

def endField (r : Reader) : Reader :=
  { r with place := .fieldStart, field := [],
           fields := String.ofList r.field.reverse :: r.fields }

def endRecord (r : Reader) (place : Place) : Reader :=
  { place, records := r.fields.reverse :: r.records }

def add (r : Reader) (place : Place) (c : Char) : Reader := { r with place, field := c :: r.field }

def takePlain (r : Reader) (c : Char) : Reader :=
  if c = '\n' then r.endField.endRecord .recordStart
  else if c = '\r' then r.endField.endRecord .lineEnd
  else if c = ',' then r.endField
  else r.add .plain c

def takeFirst (r : Reader) (c : Char) : Reader :=
  if c = '"' then { r with place := .quoted } else r.takePlain c

def takeStart (r : Reader) (c : Char) : Reader :=
  if c = '\n' then r.endRecord .recordStart
  else if c = '\r' then r.endRecord .lineEnd
  else r.takeFirst c

def take (r : Reader) (c : Char) : Reader :=
  match r.place with
  | .recordStart => r.takeStart c
  | .fieldStart => r.takeFirst c
  | .plain => r.takePlain c
  | .quoted => if c = '"' then { r with place := .closing } else r.add .quoted c
  | .closing => if c = '"' then r.add .quoted c else r.takePlain c
  | .lineEnd =>
    if c = '\n' then { r with place := .recordStart }
    else if c = '\r' then r
    else r.takeStart c

def finish (r : Reader) : List (List String) :=
  match r.place with
  | .recordStart => r.records.reverse
  | .lineEnd => r.records.reverse
  | _ => (r.endField.endRecord .recordStart).records.reverse

end Reader

def read (text : String) : List (List String) := (text.toList.foldl Reader.take {}).finish

def needsQuotes (s : String) : Bool :=
  s.toList.any fun c => c = ',' || c = '"' || c = '\n' || c = '\r'

def quote (s : String) : String :=
  "\"" ++ String.ofList (s.toList.flatMap fun c => if c = '"' then ['"', '"'] else [c]) ++ "\""

def field (s : String) : String := if needsQuotes s then quote s else s

def record (fields : List String) : String :=
  (if fields = [""] then "\"\"" else ",".intercalate (fields.map field)) ++ "\r\n"

abbrev Row := Table String (Option String)

/-- The row of a record; a name that is repeated counts with its last field. -/
def row (columns : List String) (fields : List String) : Row :=
  .ofList (columns.zipIdx.map fun (c, k) => (c, fields[k]?))

end Csv

end BrilKit
