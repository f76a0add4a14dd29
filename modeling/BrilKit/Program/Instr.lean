import BrilKit.Fault
import BrilKit.Program.Ty

/-!
# Instructions

An item of a function's body is a label or an operation. In programs that break the rules an item
can be both or neither, and fields can be missing; so every field is optional.
-/

namespace BrilKit

structure Instr where
  /-- The operation; an item without one acts as a label. -/
  op : Option String := none
  dest : Option String := none
  type : Option Ty := none
  args : Option (List String) := none
  funcs : Option (List String) := none
  labels : Option (List String) := none
  label : Option String := none
  value : Option Datum := none
  extra : List (String × Datum) := []
deriving Repr, DecidableEq, Inhabited

abbrev Block := List Instr

def terminators : List String := ["br", "jmp", "ret"]

namespace Instr

def labelled (name : String) : Instr := { label := some name }

def jump (target : String) : Instr := { op := some "jmp", labels := some [target] }

def isOp (i : Instr) : Bool := i.op.isSome

def isTerminator (i : Instr) : Bool := i.op.any terminators.contains

def hasOp (i : Instr) (name : String) : Bool := i.op == some name

def uses (i : Instr) : List String := i.args.getD []

def setsLabel (i : Instr) : Bool := i.label.isSome || (i.extra.lookup "label").isSome

def getOp (i : Instr) : Outcome String := .ofOption "op" i.op

def getDest (i : Instr) : Outcome String := .ofOption "dest" i.dest

def getType (i : Instr) : Outcome Ty := .ofOption "type" i.type

def getArgs (i : Instr) : Outcome (List String) := .ofOption "args" i.args

def getLabels (i : Instr) : Outcome (List String) := .ofOption "labels" i.labels

def getValue (i : Instr) : Outcome Datum := .ofOption "value" i.value

def toConst (i : Instr) (v : Datum) : Instr :=
  { i with op := some "const", value := some v, args := none }

def toCopy (i : Instr) (x : String) : Instr := { i with op := some "id", args := some [x] }

end Instr

end BrilKit
