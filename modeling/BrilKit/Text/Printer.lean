import BrilKit.Program.Basic
import BrilKit.Text.Escapes
import BrilKit.Text.Letters

/-!
# The text of a program

Each instruction is one line; labels stand at the margin, operations are indented by two blanks
and end with a semicolon.
-/

namespace BrilKit

def Ty.render : Ty → Outcome String
  | .name s => .ok s
  | .app k t => do return k ++ "<" ++ (← t.render) ++ ">"
  | .other d => if d.isRecord then .error (.violated "") else .ok d.text

/-- Whether a type is that of characters. A type that is not a name has no letters to compare. -/
def Ty.isChar : Ty → Outcome Bool
  | .name s => .ok (Letters.lowerText s == "char")
  | .app .. => .ok false
  | .other d => if d.isRecord then .ok false else .error .noOperation

def renderValue (t : Ty) (v : Datum) : Outcome String := do
  if ← t.isChar then
    match v with
    | .str s =>
      match s.toList with
      | [c] => return "'" ++ Escapes.encode c ++ "'"
      | _ => .error .kind
    | _ => .error .kind
  else return Letters.lowerText v.text

namespace Instr

def typeMark (i : Instr) : Outcome String :=
  match i.type with
  | some t => do return ": " ++ (← t.render)
  | none => .ok ""

/-- The items of a field that does not have the form of a list of names: nothing when it is empty,
the characters of a text, the field names of a record. -/
def looseItems (i : Instr) (field : String) : Outcome (List Datum) :=
  match i.extra.lookup field with
  | none => .ok []
  | some d =>
    if d.truth then
      match d with
      | .str s => .ok (s.toList.map fun c => .str (String.singleton c))
      | .list xs => .ok xs
      | .record fs => .ok (fs.map fun f => .str f.1)
      | _ => .error .kind
    else .ok []

def marked (i : Instr) (field mark : String) (regular : Option (List String)) :
    Outcome (List String) :=
  match regular with
  | some ss => .ok (ss.map (mark ++ ·))
  | none => do return (← i.looseItems field).map fun d => mark ++ d.text

def operands (i : Instr) : Outcome (List String) :=
  match i.args with
  | some ss => .ok ss
  | none => do
    (← i.looseItems "args").mapM fun
      | .str s => .ok s
      | _ => .error .kind

def destText (i : Instr) : Option String :=
  match i.dest with
  | some d => some d
  | none => (i.extra.lookup "dest").map Datum.text

def renderConst (i : Instr) : Outcome String := do
  let ann ← i.typeMark
  let dest ← Outcome.ofOption "dest" i.destText
  let type ← i.getType
  let value ← i.getValue
  return dest ++ ann ++ " = const " ++ (← renderValue type value)

def renderOperation (i : Instr) (op : String) : Outcome String := do
  let funcs ← i.marked "funcs" "@" i.funcs
  let args ← i.operands
  let labels ← i.marked "labels" "." i.labels
  return " ".intercalate (op :: funcs ++ args ++ labels)

def render (i : Instr) : Outcome String := do
  let op ← i.getOp
  if op == "const" then i.renderConst
  else
    let rhs ← i.renderOperation op
    match i.destText with
    | some dest => return dest ++ (← i.typeMark) ++ " = " ++ rhs
    | none => return rhs

def labelText (i : Instr) : Option String :=
  match i.label with
  | some l => some l
  | none => (i.extra.lookup "label").map Datum.text

def line (i : Instr) : Outcome String :=
  match i.labelText with
  | some l => .ok ("." ++ l ++ ":\n")
  | none => do return "  " ++ (← i.render) ++ ";\n"

end Instr

def Param.render (p : Param) : Outcome String := do
  return (← p.getName) ++ ": " ++ (← (← p.getType).render)

namespace Func

def renderParams (f : Func) : Outcome String :=
  match f.args with
  | some [] => .ok ""
  | some ps => do return "(" ++ ", ".intercalate (← ps.mapM Param.render) ++ ")"
  | none =>
    match f.extra.lookup "args" with
    | some d => if d.truth then .error .kind else .ok ""
    | none => .ok ""

/-- The annotation that gives the result's type; `void` is not written. -/
def renderType (f : Func) : Outcome String :=
  match f.type with
  | none => .ok ""
  | some t => if t = .name "void" then .ok "" else do return ": " ++ (← t.render)

def render (f : Func) : Outcome String := do
  let name ← f.getName
  let params ← f.renderParams
  let type ← f.renderType
  let is ← f.body
  let lines ← is.mapM Instr.line
  return "@" ++ name ++ params ++ type ++ " \x7b\n" ++ String.join lines ++ "\x7d\n"

end Func

def Program.render (p : Program) : Outcome String := do
  return String.join (← (← p.funcs).mapM Func.render)

end BrilKit
