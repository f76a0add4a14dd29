import BrilKit.Program.Instr

/-!
# Functions and programs

A program is a list of functions and, possibly, declarations of structures. As with instructions
every field is optional, and `extra` holds what has no place of its own.
-/

namespace BrilKit

/-- A name with its type: a function's parameter or a structure's member. -/
structure Param where
  name : Option String := none
  type : Option Ty := none
  extra : List (String × Datum) := []
deriving Repr, DecidableEq, Inhabited

structure Func where
  name : Option String := none
  args : Option (List Param) := none
  type : Option Ty := none
  instrs : Option (List Instr) := none
  extra : List (String × Datum) := []
deriving Repr, DecidableEq, Inhabited

structure Struct where
  name : Option String := none
  members : Option (List Param) := none
  extra : List (String × Datum) := []
deriving Repr, DecidableEq, Inhabited

structure Program where
  functions : Option (List Func) := none
  structs : Option (List Struct) := none
  extra : List (String × Datum) := []
deriving Repr, DecidableEq, Inhabited

namespace Param

def getName (p : Param) : Outcome String := .ofOption "name" p.name

def getType (p : Param) : Outcome Ty := .ofOption "type" p.type

end Param

namespace Func

def getName (f : Func) : Outcome String := .ofOption "name" f.name

def body (f : Func) : Outcome (List Instr) := .ofOption "instrs" f.instrs

def withBody (f : Func) (is : List Instr) : Func := { f with instrs := some is }

def params (f : Func) : List Param := f.args.getD []

/-- The parameters to go through, if the field is there. One that is not a list must be empty. -/
def paramList? (f : Func) : Outcome (Option (List Param)) :=
  match f.args, f.extra.lookup "args" with
  | some ps, _ => .ok (some ps)
  | none, none => .ok none
  | none, some (.str "") => .ok (some [])
  | none, some (.record []) => .ok (some [])
  | none, some _ => .error .kind

def paramList (f : Func) : Outcome (List Param) := do return (← f.paramList?).getD []

def mapBody (t : List Instr → List Instr) (f : Func) : Outcome Func := do
  let is ← f.body
  return f.withBody (t is)

def mapBodyM (t : List Instr → Outcome (List Instr)) (f : Func) : Outcome Func := do
  let is ← f.body
  return f.withBody (← t is)

end Func

namespace Program

def funcs (p : Program) : Outcome (List Func) := .ofOption "functions" p.functions

def withFuncs (p : Program) (fs : List Func) : Program := { p with functions := some fs }

def mapFuncs (t : Func → Outcome Func) (p : Program) : Outcome Program := do
  let fs ← p.funcs
  return p.withFuncs (← fs.mapM t)

end Program

end BrilKit
