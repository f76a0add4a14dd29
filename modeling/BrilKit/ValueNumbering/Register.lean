import BrilKit.Constants.Words
import BrilKit.Data.Members
import BrilKit.Program.Instr

/-!
# Registers of written values

A second way to number values: a value is a text, the operation followed by its operands, where an
operand is the number of a value, the text of a constant or the name of an unknown variable.
-/

namespace BrilKit

namespace ValueNumbering

/-- Variables, numbers and the texts of values. -/
structure Register where
  numbers : Table (Option String) Nat := .empty
  byText : Table String Nat := .empty
  /-- The variables that were given each numbered value. -/
  holders : Table Nat (List (Option String)) := .empty
  texts : Table Nat String := .empty
  next : Nat := 0
deriving Repr, DecidableEq

namespace Register

def fetch {α : Type} (t : Table Nat α) (n : Nat) : Outcome α := .ofOption (toString n) (t.get? n)

def occurs (part : List Char) : List Char → Bool
  | [] => part.isEmpty
  | c :: cs => part.isPrefixOf (c :: cs) || occurs part cs

def contains (text part : String) : Bool := occurs part.toList text.toList

/-- The operand of the constant that a text denotes: what follows its first blank, up to the
next one. -/
def constText (text : String) : Outcome String :=
  match text.toList.dropWhile (· != ' ') with
  | [] => .error .outOfRange
  | _ :: cs => .ok (String.ofList (cs.takeWhile (· != ' ')))

def operand (r : Register) (x : String) : Outcome (String × Bool) :=
  match r.numbers.get? (some x) with
  | none => .ok (x, false)
  | some n => do
    let text ← fetch r.texts n
    if contains text "const" then return (← constText text, true) else return (toString n, false)

/-- The texts of the operands of an instruction, and whether all are constants. The operand of a
constant is its value, which does not count as one; `none` when there are no operands at all. -/
def operands (r : Register) (i : Instr) : Outcome (Option (List String × Bool)) :=
  match i.value, i.args with
  | some d, _ => .ok (some ([d.text], false))
  | none, some xs => do
    let os ← xs.mapM r.operand
    return some (os.map Prod.fst, os.all Prod.snd)
  | none, none => .ok none

/-- The text of an operation on operands; those of a commutative one are put in order. -/
def textOf (commutative : List String) (op : String) (args : List String) : String :=
  let args := if commutative.contains op then sortNames args else args
  op ++ " " ++ " ".intercalate args

def textOfConst (d : Datum) : String := "const " ++ d.text

def enter (r : Register) (dest : Option String) (text : String) : Register :=
  { numbers := r.numbers.put dest r.next
    byText := r.byText.put text r.next
    holders := r.holders.put r.next [dest]
    texts := r.texts.put r.next text
    next := r.next + 1 }

def holder (r : Register) (n : Nat) : Outcome (Option String) := do itemAt (← fetch r.holders n) 0

def assign (r : Register) (dest : Option String) (n : Nat) : Register :=
  { r with numbers := r.numbers.put dest n
           holders := r.holders.alter n fun xs => xs.getD [] ++ [dest] }

def showHolders (xs : List (Option String)) : String :=
  (Datum.list (xs.map fun x => x.elim .null .str)).text

def render (r : Register) : Outcome String := do
  let lines ← r.texts.entries.mapM fun (n, text) => do
    let xs ← fetch r.holders n
    xs.forM fun x => do
      let m ← Outcome.ofOption (x.getD "None") (r.numbers.get? x)
      Outcome.guard (m == n) (.violated "")
    let m ← r.byText.fetch text
    Outcome.guard (m == n) (.violated "")
    return toString n ++ ": " ++ text ++ " | " ++ showHolders xs ++ "\n"
  return String.join lines

end Register

/-- The instruction with a single operand; one without a name is kept as a gap. -/
def withOperand (i : Instr) (x : Option String) : Instr :=
  match x with
  | some x => { i with args := some [x] }
  | none =>
    { i with args := none,
             extra := i.extra.filter (fun f => f.1 != "args") ++ [("args", .list [.null])] }

end ValueNumbering

end BrilKit
