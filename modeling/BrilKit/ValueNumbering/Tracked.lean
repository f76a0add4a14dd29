import BrilKit.Block.Split
import BrilKit.ValueNumbering.Register

/-!
# Value numbering that tracks reassignment

A variable that is assigned again is struck off the value it held before; a value that no variable
holds any more is forgotten. Operations on constants are carried out for whole numbers only.
-/

namespace BrilKit

namespace ValueNumbering

namespace Tracked

def commutative : List String := ["add", "mul", "sub", "eq"]

/-- Carry out an operation on constants. The operand of `print` is passed on as it is. -/
def eval (op : String) (args : List String) : Outcome Datum :=
  match op with
  | "add" => Words.onInts (fun a b => .int (a + b)) args
  | "sub" => Words.onInts (fun a b => .int (a - b)) args
  | "mul" => Words.onInts (fun a b => .int (a * b)) args
  | "div" => Words.quotient args
  | "id" => do return .int (← Words.intAt args 0)
  | "print" => do return .str (← itemAt args 0)
  | _ => .error (Words.unknownOperator op)

def held (r : Register) (dest : Option String) : Outcome (Option (Nat × String)) :=
  match dest with
  | none => .ok none
  | some d =>
    match r.numbers.get? (some d) with
    | none => .ok none
    | some n => do return some (n, ← Register.fetch r.texts n)

/-- The instruction with its operation carried out when it can be, and the text of its value. -/
def evaluate (i : Instr) (op : String) (args : List String) (allConst : Bool) :
    Outcome (Instr × String) :=
  if allConst then do
    let d ← eval op args
    return (if op == "print" then i else i.toConst d, Register.textOfConst d)
  else .ok (i, Register.textOf commutative op args)

/-- Enter the value of an instruction, or use the variable that holds it already. -/
def record (r : Register) (i : Instr) (text : String) : Outcome (Register × Instr) :=
  match r.byText.get? text with
  | none => .ok (r.enter i.dest text, i)
  | some n => do
    let i := withOperand i (← r.holder n)
    if i.hasOp "print" then return (r, i)
    else return (r.assign i.dest n, { i with op := some "id" })

def strike (r : Register) (dest : Option String) (n : Nat) (text : String) : Outcome Register := do
  let xs ← Register.fetch r.holders n
  Outcome.guard (xs.contains dest) .notListed
  let xs := xs.erase dest
  let r := { r with holders := r.holders.put n xs }
  if xs.isEmpty then return { r with texts := r.texts.erase n, byText := r.byText.erase text }
  else return r

def step (r : Register) (i : Instr) : Outcome (Register × Instr) :=
  match i.op with
  | none => .ok (r, i)
  | some op => do
    let old ← held r i.dest
    let (r, j) ←
      match ← r.operands i with
      | none => pure (r, i)
      | some (args, allConst) =>
        let (j, text) ← evaluate i op args allConst
        record r j text
    match old with
    | none => return (r, j)
    | some (n, text) => return (← strike r i.dest n text, j)

def steps : Register → Block → Outcome Block
  | _, [] => .ok []
  | r, i :: is => do
    let (r, i) ← step r i
    return i :: (← steps r is)

def block (b : Block) : Outcome Block := steps {} b

def body (is : List Instr) : Outcome (List Instr) := do
  return (← (Block.collect is).mapM block).flatten

end Tracked

end ValueNumbering

end BrilKit
