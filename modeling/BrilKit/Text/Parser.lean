import BrilKit.Program.Codec
import BrilKit.Text.Cursor
import BrilKit.Text.Escapes

/-!
# Reading the text of a program

Tokens are not separated beforehand: at each position the reader takes the longest token of the kind
that the grammar allows there, and blanks and comments may stand between any two tokens.
-/

namespace BrilKit

namespace Parser

def isNameStart (c : Char) : Bool := c = '_' || c = '%' || c.isAlpha

def isNamePart (c : Char) : Bool := isNameStart c || c = '.' || c.isDigit

def nameChars : List Char → Option (List Char)
  | [] => none
  | c :: cs => if isNameStart c then some (c :: cs.takeWhile isNamePart) else none

def name (c : Cursor) : Option (String × Cursor) := do
  let cs ← nameChars c.rest
  some (String.ofList cs, c.advance cs.length)

def markedName (mark : Char) (c : Cursor) : Option (String × Cursor) :=
  match c.rest with
  | m :: _ => if m = mark then name (c.advance 1) else none
  | [] => none

def word (w : String) (c : Cursor) : Option Cursor :=
  if w.toList.isPrefixOf c.rest then some (c.advance w.length) else none

def nextWord (w : String) (c : Cursor) : Option Cursor := word w c.skip

def typeWith : Nat → Cursor → Option (Ty × Cursor)
  | 0, _ => none
  | fuel + 1, c => do
    let (n, c) ← name c.skip
    match nextWord "<" c with
    | some inner =>
      let (t, c) ← typeWith fuel inner
      let c ← nextWord ">" c
      some (.app n t, c)
    | none => some (.name n, c)

def type (c : Cursor) : Option (Ty × Cursor) := typeWith (c.rest.length + 1) c

def typeAnnotation (c : Cursor) : Option (Option Ty × Cursor) :=
  match nextWord ":" c with
  | some c => do
    let (t, c) ← type c
    some (some t, c)
  | none => some (none, c)

/-- The sign at the front of a number: whether it is negative, and the rest. -/
def sign : List Char → Bool × List Char
  | '-' :: cs => (true, cs)
  | '+' :: cs => (false, cs)
  | cs => (false, cs)

def wholeNumber (cs : List Char) : Option (Datum × List Char) :=
  let (negative, body) := sign cs
  let (ds, rest) := Json.digits body
  if ds.isEmpty then none
  else
    let n : Int := Decimal.digitsValue ds
    some (.int (if negative then -n else n), rest)

/-- A number with a fraction or an exponent: its value and the characters after it. -/
def realNumber (cs : List Char) : Option (Datum × List Char) :=
  let (negative, body) := sign cs
  let (whole, rest) := Json.digits body
  let (point, frac, rest) :=
    match rest with
    | '.' :: r => let (ds, r) := Json.digits r; (true, ds, r)
    | r => (false, [], r)
  if whole.isEmpty && frac.isEmpty then none
  else
    let exp := Json.exponentPart rest
    if !point && exp.isNone then none
    else
      let rest := (exp.map Prod.snd).getD rest
      let k := (exp.map Prod.fst).getD 0 - (frac.length : Int)
      some (.float (Decimal.toFloat negative (Decimal.digitsValue (whole ++ frac)) k), rest)

/-- A character constant: a character or an escape between single quotes. -/
def charConstant : List Char → Option (Datum × List Char)
  | '\'' :: c :: '\'' :: rest =>
    if c = '\n' then none else some (.str (String.singleton c), rest)
  | '\'' :: '\\' :: l :: '\'' :: rest =>
    (Escapes.decode? l).map fun c => (.str (String.singleton c), rest)
  | _ => none

def valueWord (w : String) (d : Datum) (cs : List Char) : Option (Datum × List Char) :=
  if w.toList.isPrefixOf cs then some (d, cs.drop w.length) else none

def literals (cs : List Char) : List (Datum × List Char) :=
  [wholeNumber cs, valueWord "true" (.bool true) cs, valueWord "false" (.bool false) cs,
    realNumber cs, valueWord "nullptr" (.int 0) cs, charConstant cs].filterMap id

def literalStatement (c : Cursor) : Option (Datum × Cursor) :=
  let c := c.skip
  (literals c.rest).findSome? fun (d, rest) => do
    let c ← nextWord ";" (c.advance (c.rest.length - rest.length))
    some (d, c)

structure Operands where
  args : List String := []
  funcs : List String := []
  labels : List String := []

/-- The operands up to the semicolon that ends the instruction; each takes a character at least. -/
def operands : Nat → Operands → Cursor → Option (Operands × Cursor)
  | 0, _, _ => none
  | fuel + 1, os, c =>
    let c := c.skip
    match word ";" c with
    | some c => some (os, c)
    | none =>
      match markedName '@' c with
      | some (f, c) => operands fuel { os with funcs := os.funcs ++ [f] } c
      | none =>
        match markedName '.' c with
        | some (l, c) => operands fuel { os with labels := os.labels ++ [l] } c
        | none => do
          let (x, c) ← name c
          operands fuel { os with args := os.args ++ [x] } c

def listField (xs : List String) : Option (List String) := if xs.isEmpty then none else some xs

def operation (c : Cursor) : Option (Instr × Cursor) := do
  let (op, c) ← name c.skip
  let (os, c) ← operands (c.rest.length + 1) {} c
  some ({ op := some op, args := listField os.args, funcs := listField os.funcs,
          labels := listField os.labels }, c)

def position (wanted : Bool) (c : Cursor) : List (String × Datum) :=
  if wanted then [("pos", .record [("col", .int c.col), ("row", .int c.row)])] else []

def constant (dest : String) (t : Option Ty) (c : Cursor) : Option (Instr × Cursor) := do
  let c ← nextWord "const" c
  let (v, c) ← literalStatement c
  some ({ op := some "const", dest := some dest, type := t, value := some v }, c)

/-- An instruction that assigns to `dest`, read behind the name of the variable. -/
def assignment (dest : String) (c : Cursor) : Option (Instr × Cursor) := do
  let (t, c) ← typeAnnotation c
  let c ← nextWord "=" c
  match constant dest t c with
  | some r => some r
  | none =>
    let (i, c) ← operation c
    some ({ i with dest := some dest, type := t }, c)

def instr (pos : Bool) (c : Cursor) : Option (Instr × Cursor) :=
  match markedName '.' c with
  | some (l, after) => do
    let after ← nextWord ":" after
    some ({ label := some l, extra := position pos c }, after)
  | none => do
    let (x, after) ← name c
    let (i, after) ←
      match assignment x after with
      | some r => some r
      | none => operation c
    some ({ i with extra := position pos c }, after)

def untilBrace {α : Type} (item : Cursor → Option (α × Cursor)) :
    Nat → Cursor → Option (List α × Cursor)
  | 0, _ => none
  | fuel + 1, c =>
    let c := c.skip
    match word "\x7d" c with
    | some c => some ([], c)
    | none => do
      let (x, c) ← item c
      let (xs, c) ← untilBrace item fuel c
      some (x :: xs, c)

def param (c : Cursor) : Option (Param × Cursor) := do
  let (n, c) ← name c.skip
  let c ← nextWord ":" c
  let (t, c) ← type c
  some ({ name := some n, type := some t }, c)

def moreParams : Nat → Cursor → Option (List Param × Cursor)
  | 0, _ => none
  | fuel + 1, c =>
    match nextWord ")" c with
    | some c => some ([], c)
    | none => do
      let c ← nextWord "," c
      let (p, c) ← param c
      let (ps, c) ← moreParams fuel c
      some (p :: ps, c)

def params (c : Cursor) : Option (List Param × Cursor) :=
  match nextWord "(" c with
  | none => some ([], c)
  | some c =>
    match nextWord ")" c with
    | some c => some ([], c)
    | none => do
      let (p, c) ← param c
      let (ps, c) ← moreParams (c.rest.length + 1) c
      some (p :: ps, c)

def func (pos : Bool) (c : Cursor) : Option (Func × Cursor) := do
  let (n, after) ← markedName '@' c
  let (ps, after) ← params after
  let (t, after) ← typeAnnotation after
  let after ← nextWord "\x7b" after
  let (is, after) ← untilBrace (instr pos) (after.rest.length + 1) after
  some ({ name := some n, args := if ps.isEmpty then none else some ps, type := t,
          instrs := some is, extra := position pos c }, after)

def member (c : Cursor) : Option (Param × Cursor) := do
  let (p, c) ← param c
  let c ← nextWord ";" c
  some (p, c)

def struct (c : Cursor) : Option (Struct × Cursor) := do
  let c ← word "struct" c
  let (n, c) ← name c.skip
  let c ← nextWord "=" c
  let c ← nextWord "\x7b" c
  let (ms, c) ← untilBrace member (c.rest.length + 1) c
  some ({ name := some n, members := some ms }, c)

/-- Functions and declarations up to the end of the text; each takes a character at least. -/
def items (pos : Bool) : Nat → Cursor → Option (List Func × List Struct)
  | 0, _ => none
  | fuel + 1, c =>
    let c := c.skip
    if c.rest.isEmpty then some ([], [])
    else
      match func pos c with
      | some (f, c) => do
        let (fs, ss) ← items pos fuel c
        some (f :: fs, ss)
      | none => do
        let (s, c) ← struct c
        let (fs, ss) ← items pos fuel c
        some (fs, s :: ss)

end Parser

def Program.parse (pos : Bool) (text : String) : Outcome Program :=
  let c := Cursor.ofText text
  match Parser.items pos (c.rest.length + 1) c with
  | some (fs, ss) =>
    .ok { functions := some fs, structs := if ss.isEmpty then none else some ss }
  | none => .error .ungrammatical

end BrilKit
