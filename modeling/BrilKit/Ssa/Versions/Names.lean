import BrilKit.Program.Basic

/-!
# Names of versions

Version `n` of a variable `x` is written `x.n`. Reading the variable off a version drops the part
behind the last dot, and with it all dots.
-/

namespace BrilKit

namespace Ssa

def nameParts (x : String) : List String := (x.toList.splitOn '.').map String.ofList

/-- The variable of a version: the parts before the last dot, put together. -/
def variableOf (version : String) : String := String.join (nameParts version).dropLast

def versionOf (x : String) (n : Nat) : String := x ++ "." ++ toString n

def stem (x : String) : String := (nameParts x).headD ""

def stemInstr (i : Instr) : Instr :=
  { i with dest := i.dest.map stem, args := i.args.map fun xs => xs.map stem }

def stemParam (p : Param) : Outcome Param := do return { p with name := some (stem (← p.getName)) }

/-- The function without phis and with the stems of all variables: what it was before versions
were introduced, if no variable had a dot in its name. -/
def dropVersions (f : Func) : Outcome Func := do
  let _ ← f.paramList?
  let args ← f.args.mapM fun ps => ps.mapM stemParam
  let is ← f.body
  return { f with args, instrs := some ((is.filter fun i => !i.hasOp "phi").map stemInstr) }

end Ssa

end BrilKit
