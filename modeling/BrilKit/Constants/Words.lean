import BrilKit.Program.Ty
import BrilKit.Text.Numeral

/-!
# Operations on written constants

The passes of this family carry constants as texts: an operand is the text of a known constant or
the name of a variable. Carrying out an operation reads its operands back from their texts.
-/

namespace BrilKit

namespace Words

def truthOf (word : String) (text : String) : Outcome Bool :=
  if word == "true" then .ok true
  else if word == "false" then .ok false
  else .error (.stopped ("Unknown boolean value " ++ text))

def strictTruth (text : String) : Outcome Bool := truthOf text text

def truth (text : String) : Outcome Bool := truthOf (Letters.lowerText text) text

def intAt (args : List String) (k : Nat) : Outcome Int := do Numeral.read (← itemAt args k)

def truthAt (args : List String) (k : Nat) : Outcome Bool := do truth (← itemAt args k)

def onInts (f : Int → Int → Datum) (args : List String) : Outcome Datum := do
  let a ← intAt args 0
  let b ← intAt args 1
  return f a b

def quotient (args : List String) : Outcome Datum := do
  let a ← intAt args 0
  let b ← intAt args 1
  if b = 0 then .error .divisionByZero else return .int (Int.fdiv a b)

/-- The value of an operand at a type: a whole number for `int`, otherwise a truth value. -/
def valueAt (type : Option Ty) (args : List String) : Outcome Datum := do
  let t ← Outcome.ofOption "type" type
  if t = .int then return .int (← intAt args 0) else return .bool (← truthAt args 0)

/-- Conjunction; the second operand is read only when the first is true. -/
def both (args : List String) : Outcome Datum := do
  if ← truthAt args 0 then return .bool (← truthAt args 1) else return .bool false

/-- Disjunction; the second operand is read only when the first is false. -/
def either (args : List String) : Outcome Datum := do
  if ← truthAt args 0 then return .bool true else return .bool (← truthAt args 1)

def unknownOperator (op : String) : Fault := .stopped ("Unknown operator " ++ op)

def eval (op : String) (type : Option Ty) (args : List String) : Outcome Datum :=
  match op with
  | "const" => valueAt type args
  | "add" => onInts (fun a b => .int (a + b)) args
  | "sub" => onInts (fun a b => .int (a - b)) args
  | "mul" => onInts (fun a b => .int (a * b)) args
  | "div" => quotient args
  | "id" => valueAt type args
  | "and" => both args
  | "or" => either args
  | "not" => do return .bool !(← truthAt args 0)
  | "eq" => onInts (fun a b => .bool (a == b)) args
  | "le" => onInts (fun a b => .bool (decide (a ≤ b))) args
  | "lt" => onInts (fun a b => .bool (decide (a < b))) args
  | "ge" => onInts (fun a b => .bool (decide (b ≤ a))) args
  | "gt" => onInts (fun a b => .bool (decide (b < a))) args
  | "ne" => onInts (fun a b => .bool (a != b)) args
  | _ => .error (unknownOperator op)

def reflexive : String → Option Bool
  | "eq" => some true
  | "le" => some true
  | "lt" => some false
  | "ge" => some true
  | "gt" => some false
  | "ne" => some false
  | _ => none

end Words

end BrilKit
