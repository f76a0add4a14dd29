import BrilKit.Text.Numeral

/-!
# Command templates

A command may mention the arguments of a benchmark between braces. A field can ask for the quoted
form, and for a width to which the text is padded on the left, on the right or on both sides. A
brace that is text is written twice.
-/

namespace BrilKit

namespace Template

/-- A field: the name, the conversion behind `!`, and the layout behind `:`. -/
structure Field where
  name : List Char
  conversion : Option (List Char) := none
  layout : List Char := []

def fieldOf (cs : List Char) : Field :=
  let (head, layout) := cs.span fun c => c ≠ ':'
  let (name, conversion) := head.span fun c => c ≠ '!'
  { name := name.takeWhile fun c => c ≠ '.' && c ≠ '['
    conversion := if conversion.isEmpty then none else some (conversion.drop 1)
    layout := layout.drop 1 }

/-- Pad a text to a width with a filling character: on the right for `<`, on the left for `>`, and
on both sides for `^`. -/
def pad (fill align : Char) (width : Nat) (text : List Char) : List Char :=
  let gap := width - text.length
  let (left, right) :=
    if align = '>' then (gap, 0) else if align = '^' then (gap / 2, gap - gap / 2) else (0, gap)
  List.replicate left fill ++ text ++ List.replicate right fill

def isAlign (c : Char) : Bool := c = '<' || c = '>' || c = '^'

def alignment : List Char → Char × Char × List Char
  | f :: a :: rest =>
    if isAlign a then (f, a, rest) else if isAlign f then (' ', f, a :: rest)
    else (' ', '<', f :: a :: rest)
  | [a] => if isAlign a then (' ', a, []) else (' ', '<', [a])
  | [] => (' ', '<', [])

/-- Lay a text out: alignment, width, and behind a point the largest length. -/
def arrange (layout : List Char) (text : List Char) : Outcome (List Char) :=
  let (fill, align, rest) := alignment layout
  let (width, rest) := rest.span Char.isDigit
  let (limit, rest) : Option Nat × List Char :=
    match rest with
    | '.' :: more =>
      let (digits, more) := more.span Char.isDigit
      (some (Decimal.digitsValue digits), more)
    | more => (none, more)
  if rest.isEmpty || rest = ['s'] then
    let text := match limit with
      | some n => text.take n
      | none => text
    .ok (pad fill align (Decimal.digitsValue width) text)
  else .error .badField

def fieldText (args : String) (f : Field) : Outcome (List Char) :=
  if f.name.all Char.isDigit then .error .outOfRange
  else if f.name ≠ "args".toList then .error (.missing (String.ofList f.name))
  else
    match f.conversion with
    | none => arrange f.layout args.toList
    | some ['s'] => arrange f.layout args.toList
    | some ['r'] => arrange f.layout (Quoted.quote args).toList
    | some ['a'] => arrange f.layout (Quoted.quote args).toList
    | some _ => .error .badField

def fillFrom (args : String) : Nat → List Char → Outcome (List Char)
  | 0, _ => .ok []
  | _ + 1, [] => .ok []
  | fuel + 1, '\x7b' :: '\x7b' :: cs => do return '\x7b' :: (← fillFrom args fuel cs)
  | fuel + 1, '\x7d' :: '\x7d' :: cs => do return '\x7d' :: (← fillFrom args fuel cs)
  | _ + 1, '\x7d' :: _ => .error .loneBrace
  | _ + 1, ['\x7b'] => .error .openBrace
  | fuel + 1, '\x7b' :: cs => do
    let (inside, rest) := cs.span fun c => c ≠ '\x7d'
    if rest.isEmpty then .error .openField
    let text ← fieldText args (fieldOf inside)
    return text ++ (← fillFrom args fuel (rest.drop 1))
  | fuel + 1, c :: cs => do return c :: (← fillFrom args fuel cs)

def fill (args template : String) : Outcome String := do
  return String.ofList (← fillFrom args (template.length + 1) template.toList)

end Template

end BrilKit
