import BrilKit.Llvm.Code

/-!
# What is known about the variables of a function

The type of each variable, the constants, and the variables that copies stand for. Constants and
copies produce no instructions; their uses are replaced.
-/

namespace BrilKit

namespace Llvm

/-- What is known about the variables of a function. -/
structure Context where
  types : Table String Ty := .empty
  constants : Table String Datum := .empty
  copies : Table String String := .empty
  /-- Whether the function is the one that is called first. -/
  isMain : Bool := false
  next : Nat := 0

namespace Context

def noteCopy (c : Context) (d x : String) : Context :=
  match c.constants.get? x with
  | some v => { c with constants := c.constants.put d v }
  | none => { c with copies := c.copies.put d (c.copies.getD x x) }

def noteResult (c : Context) (i : Instr) (d : String) : Outcome Context := do
  let op ← i.getOp
  if op == "phi" then
    let x ← itemAt (← i.getArgs) 0
    return { c with types := c.types.put d (← c.types.fetch x) }
  else
    let c := { c with types := c.types.put d (← i.getType) }
    if op == "id" then return c.noteCopy d (← itemAt (← i.getArgs) 0) else return c

def noteValue (c : Context) (i : Instr) (v : Datum) : Outcome Context := do
  let t ← i.getType
  let d ← i.getDest
  let v := if t = .bool then Datum.int (if v.truth then 1 else 0) else v
  return { c with constants := c.constants.put d v }

def note (c : Context) (i : Instr) : Outcome Context := do
  let c ← match i.dest with
    | some d => c.noteResult i d
    | none => pure c
  match i.value with
  | some v => c.noteValue i v
  | none => return c

def ofBody (isMain : Bool) (is : List Instr) : Outcome Context := is.foldlM note { isMain }

/-- What stands for a variable of a type: the constant that it holds, or a variable. -/
def piece (c : Context) (t : Ty) (x : String) : Piece :=
  match c.constants.get? x with
  | some v => .text (if isPointer t && !v.truth then "null" else v.text)
  | none => .operand (c.copies.getD x x)

def operand (c : Context) (typed : Bool) (x : String) : Outcome Code := do
  let t ← c.types.fetch x
  if typed then return [.text ((← typeText t) ++ " "), c.piece t x] else return [c.piece t x]

def operands (c : Context) (typed : Bool) (xs : List String) : Outcome Code := do
  return Code.joinWith ", " (← xs.mapM (c.operand typed))

def newName (c : Context) : String := "z" ++ toString c.next

def addNew (c : Context) (t : Ty) : Context :=
  { c with next := c.next + 1, types := c.types.put c.newName t }

end Context

end Llvm

end BrilKit
