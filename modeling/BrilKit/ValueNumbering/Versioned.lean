import BrilKit.FlowGraph.Build
import BrilKit.ValueNumbering.Register

/-!
# Value numbering of single assignments

Made for bodies in which no variable is assigned twice: what a variable was given once counts to the
end of the block. Operations on constants are carried out, and copies share the number of their
source.
-/

namespace BrilKit

namespace ValueNumbering

structure Scope where
  /-- The operations whose operands are put in order. -/
  commutative : List String
  skipped : List String
  /-- Whether operations without a result are passed over. -/
  skipsEffects : Bool

def Scope.wide : Scope where
  commutative := ["add", "mul", "sub", "eq"]
  skipped := ["call", "ret", "print"]
  skipsEffects := false

def Scope.pure : Scope where
  commutative := ["add", "mul", "eq"]
  skipped := ["call", "ret", "print", "store", "load", "alloc", "phi"]
  skipsEffects := true

namespace Versioned

def skips (scope : Scope) (i : Instr) (op : String) : Bool :=
  i.type == some (.name "float") || scope.skipped.contains op
    || (scope.skipsEffects && i.dest.isNone)

/-- The instruction with its operation carried out when it can be, and the text of its value. A
copy has the text of its operand. -/
def evaluate (scope : Scope) (i : Instr) (op : String) (args : List String) (allConst : Bool) :
    Outcome (Instr × String) :=
  if allConst then do
    let d ← Words.eval op i.type args
    return (i.toConst d, Register.textOfConst d)
  else if op == "id" then do
    let args := if scope.commutative.contains op then sortNames args else args
    return (i, ← itemAt args 0)
  else .ok (i, Register.textOf scope.commutative op args)

/-- The number of a value that is known: a copy of a numbered value has that number. -/
def known (r : Register) (i : Instr) (text : String) : Option Nat :=
  if i.hasOp "id" && Numeral.isPlain text then some (Decimal.digitsValue text.toList)
  else r.byText.get? text

/-- Enter the value of an instruction, or copy the variable that holds it already. -/
def record (r : Register) (i : Instr) (text : String) (number : Option Nat) :
    Outcome (Register × Instr) :=
  match number with
  | none => .ok (r.enter i.dest text, i)
  | some n => do
    let i := withOperand i (← r.holder n)
    return (r.assign i.dest n, { i with op := some "id" })

def step (scope : Scope) (r : Register) (i : Instr) : Outcome (Register × Instr) :=
  match i.op with
  | none => .ok (r, i)
  | some op =>
    if skips scope i op then .ok (r, i)
    else do
      match ← r.operands i with
      | none => return (r, i)
      | some (args, allConst) =>
        let (i, text) ← evaluate scope i op args allConst
        record r i text (known r i text)

def steps (scope : Scope) : Register → Block → Outcome Block
  | _, [] => .ok []
  | r, i :: is => do
    let (r, i) ← step scope r i
    return i :: (← steps scope r is)

def block (scope : Scope) (b : Block) : Outcome Block := steps scope {} b

def func (scope : Scope) (style : FlowGraph.Style) (f : Func) : Outcome Func := do
  let g ← f.labelledGraph style false
  return f.withBody (← g.blocks.mapM (block scope)).flatten

end Versioned

end ValueNumbering

end BrilKit
