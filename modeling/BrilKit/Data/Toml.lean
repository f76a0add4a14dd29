import BrilKit.Data.Json.Reader
import BrilKit.Data.Members

/-!
# Configuration texts

A configuration is a list of lines that set keys to values, and of headers that name the table to
which the keys behind them belong. Values are texts, numbers, truth values, lists and tables.
-/

namespace BrilKit

namespace Toml

def skipSpaces (cs : List Char) : List Char := cs.dropWhile fun c => c = ' ' || c = '\t'

def skipGaps : Nat → List Char → List Char
  | 0, cs => cs
  | fuel + 1, cs =>
    match cs.dropWhile fun c => c = ' ' || c = '\t' || c = '\n' || c = '\r' with
    | '#' :: rest => skipGaps fuel (rest.dropWhile fun c => c ≠ '\n')
    | rest => rest

def endLine (cs : List Char) : Option (List Char) :=
  match skipSpaces cs with
  | [] => some []
  | '\n' :: rest => some rest
  | '\r' :: '\n' :: rest => some rest
  | '#' :: rest => some (rest.dropWhile fun c => c ≠ '\n')
  | _ => none

def literalText (cs : List Char) : Option (String × List Char) :=
  match cs.span fun c => c ≠ '\'' && c ≠ '\n' with
  | (inside, '\'' :: rest) => some (String.ofList inside, rest)
  | _ => none

def basicText (cs : List Char) : Option (String × List Char) :=
  (Json.textBody (cs.length + 1) cs).map fun (t, rest) => (String.ofList t, rest)

/-- The text up to a mark of three quotes. A line end right behind the opening mark does not
count. -/
def upToMark (mark : Char) : List Char → Option (List Char × List Char)
  | [] => none
  | c :: cs =>
    match c, cs with
    | c, d :: e :: rest =>
      if c = mark && d = mark && e = mark then some ([], rest)
      else (upToMark mark cs).map fun (t, rest) => (c :: t, rest)
    | _, _ => none

def longText (mark : Char) (cs : List Char) : Option (String × List Char) := do
  let cs := match cs with
    | '\n' :: rest => rest
    | rest => rest
  let (inside, rest) ← upToMark mark cs
  if mark = '\'' then return (String.ofList inside, rest)
  let escaped := inside.flatMap fun c => if c = '\n' then ['\\', 'n'] else [c]
  let (t, left) ← basicText (escaped ++ ['"'])
  if left.isEmpty then some (t, rest) else none

def isKeyChar (c : Char) : Bool := c.isAlphanum || c = '_' || c = '-'

def key : List Char → Option (String × List Char)
  | '"' :: cs => basicText cs
  | '\'' :: cs => literalText cs
  | cs =>
    let (name, rest) := cs.span isKeyChar
    if name.isEmpty then none else some (String.ofList name, rest)

def keyPath : Nat → List Char → Option (List String × List Char)
  | 0, _ => none
  | fuel + 1, cs => do
    let (k, rest) ← key (skipSpaces cs)
    match skipSpaces rest with
    | '.' :: rest =>
      let (ks, rest) ← keyPath fuel rest
      return (k :: ks, rest)
    | rest => return ([k], rest)

/-- A number: digits may be grouped by underscores, and a sign may stand in front. -/
def number (cs : List Char) : Option (Datum × List Char) := do
  let (word, rest) := cs.span fun c => c.isAlphanum || c = '.' || c = '_' || c = '+' || c = '-'
  let plain := word.filter fun c => c ≠ '_'
  let plain := match plain with
    | '+' :: more => more
    | more => more
  let (d, left) ← Json.scalar plain
  match d with
  | .int _ => if left.isEmpty then some (d, rest) else none
  | .float _ => if left.isEmpty then some (d, rest) else none
  | _ => none

/-- Put a value at a path of keys. A key that is taken must hold a table, and the path goes on
inside it. -/
def place : List String → Datum → List (String × Datum) → Option (List (String × Datum))
  | [], .record new, fields => if new.isEmpty then some fields else none
  | [], _, _ => none
  | [k], v, fields =>
    match fields.lookup k, v with
    | none, v => some (fields ++ [(k, v)])
    | some (.record _), .record [] => some fields
    | _, _ => none
  | k :: ks, v, fields => do
    let inner ← (match fields.lookup k with
      | none => some []
      | some (.record inner) => some inner
      | some _ => none)
    let inner ← place ks v inner
    if fields.any fun f => f.1 == k then
      return fields.map fun f => if f.1 == k then (k, .record inner) else f
    else return fields ++ [(k, .record inner)]

mutual

def value : Nat → List Char → Option (Datum × List Char)
  | 0, _ => none
  | fuel + 1, cs =>
    match cs with
    | '"' :: '"' :: '"' :: cs => (longText '"' cs).map fun (t, rest) => (.str t, rest)
    | '\'' :: '\'' :: '\'' :: cs => (longText '\'' cs).map fun (t, rest) => (.str t, rest)
    | '"' :: cs => (basicText cs).map fun (t, rest) => (.str t, rest)
    | '\'' :: cs => (literalText cs).map fun (t, rest) => (.str t, rest)
    | '[' :: cs => (items fuel (skipGaps cs.length cs)).map fun (xs, rest) => (.list xs, rest)
    | '\x7b' :: cs => (fields fuel [] (skipSpaces cs)).map fun (fs, rest) => (.record fs, rest)
    | 't' :: 'r' :: 'u' :: 'e' :: cs => some (.bool true, cs)
    | 'f' :: 'a' :: 'l' :: 's' :: 'e' :: cs => some (.bool false, cs)
    | cs => number cs

/-- The items of a list up to its bracket; a comma may stand behind the last one. -/
def items : Nat → List Char → Option (List Datum × List Char)
  | 0, _ => none
  | _ + 1, ']' :: cs => some ([], cs)
  | fuel + 1, cs => do
    let (x, rest) ← value fuel cs
    match skipGaps rest.length rest with
    | ',' :: rest =>
      let (xs, rest) ← items fuel (skipGaps rest.length rest)
      return (x :: xs, rest)
    | ']' :: rest => return ([x], rest)
    | _ => none

def fields : Nat → List (String × Datum) → List Char → Option (List (String × Datum) × List Char)
  | 0, _, _ => none
  | _ + 1, done, '\x7d' :: cs => some (done, cs)
  | fuel + 1, done, cs => do
    let (ks, rest) ← keyPath (cs.length + 1) cs
    match rest with
    | '=' :: rest =>
      let (v, rest) ← value fuel (skipSpaces rest)
      let done ← place ks v done
      match skipSpaces rest with
      | ',' :: rest => fields fuel done (skipSpaces rest)
      | '\x7d' :: rest => return (done, rest)
      | _ => none
    | _ => none

end

/-- The entries of a configuration, within the table of the latest header. -/
def entries : Nat → List String → List (String × Datum) → List Char →
    Option (List (String × Datum))
  | 0, _, _, _ => none
  | fuel + 1, table, done, cs =>
    match skipGaps cs.length cs with
    | [] => some done
    | '[' :: cs => do
      let (ks, rest) ← keyPath (cs.length + 1) cs
      match rest with
      | ']' :: rest =>
        let done ← place ks (.record []) done
        entries fuel ks done (← endLine rest)
      | _ => none
    | cs => do
      let (ks, rest) ← keyPath (cs.length + 1) cs
      match rest with
      | '=' :: rest =>
        let (v, rest) ← value (rest.length + 1) (skipSpaces rest)
        let done ← place (table ++ ks) v done
        entries fuel table done (← endLine rest)
      | _ => none

def read (text : String) : Outcome (List (String × Datum)) :=
  match entries (text.length + 1) [] [] text.toList with
  | some fields => .ok fields
  | none => .error .malformedConfig

end Toml

end BrilKit
