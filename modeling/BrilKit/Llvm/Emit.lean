import BrilKit.Llvm.Context
import BrilKit.Ssa.Stacked.Enter

/-!
# Emission of functions and programs

A program is put into single-assignment form, and each instruction is written as instructions of
the target. Instructions that have no counterpart are left out.
-/

namespace BrilKit

namespace Llvm

def binary : String → Option String
  | "add" => some "add"
  | "mul" => some "mul"
  | "sub" => some "sub"
  | "div" => some "sdiv"
  | "eq" => some "icmp eq"
  | "lt" => some "icmp slt"
  | "gt" => some "icmp sgt"
  | "le" => some "icmp sle"
  | "ge" => some "icmp sge"
  | "and" => some "and"
  | "or" => some "or"
  | _ => none

def callee (i : Instr) : Outcome String := do
  itemAt (← Outcome.ofOption "funcs" i.funcs) 0

def incoming (c : Context) (i : Instr) : List String → List String → Outcome (List Code)
  | [], _ => .ok []
  | x :: xs, labels => do
    let _ ← i.getLabels
    match labels with
    | [] => .error .outOfRange
    | l :: ls =>
      let one := .text "[ " :: (← c.operand false x) ++ [.text ", ", .block l, .text " ]"]
      return one :: (← incoming c i xs ls)

def emitAlloc (l : Layout) (c : Context) (i : Instr) (d : String) : Outcome (Context × Code) := do
  let n := c.newName
  let c := c.addNew .int
  let count ← c.operands false i.uses
  let size ← l.size (← pointee (← i.getType))
  let p := c.newName
  let c := c.addNew (.other .null)
  let bytes ← c.operand true n
  let t ← typeText (← i.getType)
  return (c, Code.assign n (.text "mul i64 " :: count ++ [.text (", " ++ toString size)])
    ++ Code.assign p (.text "call i8* @malloc(" :: bytes ++ [.text ")"])
    ++ Code.assign d [.text "bitcast i8* ", .operand p, .text (" to " ++ t)])

def emitIsNull (c : Context) (i : Instr) (d : String) : Outcome (Context × Code) := do
  let n := c.newName
  let c := c.addNew .int
  return (c, Code.assign n (.text "ptrtoint " :: (← c.operands true i.uses) ++ [.text " to i64"])
    ++ Code.assign d [.text "icmp eq i64 0, ", .operand n])

def emitMember (l : Layout) (c : Context) (i : Instr) (d : String) : Outcome Code := do
  let xs := i.uses
  let struct ← pointee (← c.types.fetch (← itemAt xs 0))
  let text ← typeText struct
  let base ← c.operands true (xs.take 1)
  let k ← l.position struct (itemAt xs 1)
  return Code.assign d (.text ("getelementptr inbounds " ++ text ++ ", ") :: base
    ++ [.text (", i64 0, i32 " ++ toString k)])

def emitValue (l : Layout) (c : Context) (i : Instr) (op d : String) :
    Outcome (Context × Code) := do
  let xs := i.uses
  let result (code : Code) : Context × Code := (c, Code.assign d code)
  match op with
  | "call" =>
    let t ← typeText (← i.getType)
    let f ← callee i
    return result (.text ("call " ++ t ++ " @__" ++ f ++ "(") :: (← c.operands true xs)
      ++ [.text ")"])
  | "not" => return result (.text "xor i1 1, " :: (← c.operands false xs))
  | "phi" =>
    let t ← typeText (← c.types.fetch (← itemAt xs 0))
    let pairs ← incoming c i xs.reverse (i.labels.getD []).reverse
    return result (.text ("phi " ++ t ++ " ") :: Code.joinWith ", " pairs)
  | "alloc" => emitAlloc l c i d
  | "load" =>
    let t ← typeText (← i.getType)
    return result (.text ("load " ++ t ++ ", ") :: (← c.operands true xs))
  | "ptradd" =>
    let t ← typeText (← pointee (← i.getType))
    return result (.text ("getelementptr inbounds " ++ t ++ ", ") :: (← c.operands true xs))
  | "getmbr" => return (c, ← emitMember l c i d)
  | "isnull" => emitIsNull c i d
  | _ =>
    match binary op with
    | some name =>
      let t ← typeText (← c.types.fetch (← itemAt xs 0))
      return result (.text (name ++ " " ++ t ++ " ") :: (← c.operands false xs))
    | none => return (c, [])

def emitPrint (c : Context) (x : String) : Outcome Code := do
  let t ← c.types.fetch x
  return .text ("  call void @print_" ++ t.text ++ "(") :: (← c.operand true x) ++ [.text ")"]

def emitEffect (c : Context) (i : Instr) (op : String) : Outcome (Context × Code) := do
  let xs := i.uses
  match op with
  | "br" =>
    let cond ← c.operands false xs
    let yes ← itemAt (← i.getLabels) 0
    let no ← itemAt (← i.getLabels) 1
    return (c, Code.line (.text "br i1 " :: cond
      ++ [.text ", label ", .block yes, .text ", label ", .block no]))
  | "jmp" => return (c, Code.line [.text "br label ", .block (← itemAt (← i.getLabels) 0)])
  | "ret" =>
    let r ← c.operands true xs
    return (c, Code.line (.text "ret " :: if r.isEmpty || c.isMain then [.text "void"] else r))
  | "call" =>
    let f ← callee i
    let args ← c.operands true xs
    return (c, Code.line (.text ("call void @__" ++ f ++ "(") :: args ++ [.text ")"]))
  | "print" =>
    let calls ← xs.mapM (emitPrint c)
    return (c, Code.joinWith "\n  call void @print_space()\n" calls
      ++ .text "\n" :: Code.line [.text "call void @print_newline()"])
  | "free" =>
    let p := c.newName
    let c := c.addNew (.other .null)
    return (c, Code.assign p (.text "bitcast " :: (← c.operands true xs) ++ [.text " to i8*"])
      ++ Code.line [.text "call void @free(i8* ", .operand p, .text ")"])
  | "store" => return (c, Code.line (.text "store " :: (← c.operands true xs.reverse)))
  | _ => return (c, [])

def emitInstr (l : Layout) (c : Context) (i : Instr) : Outcome (Context × Code) :=
  match i.op, i.dest with
  | some op, some d => emitValue l c i op d
  | some op, none => emitEffect c i op
  | none, _ =>
    match i.label with
    | some label => .ok (c, [.text (label ++ ":\n")])
    | none => .error (if i.setsLabel then .kind else .missing "label")

def emitBody (l : Layout) (c : Context) : List Instr → Outcome Code
  | [] => .ok []
  | i :: is => do
    let (c, code) ← emitInstr l c i
    return code ++ (← emitBody l c is)

def resultText (isMain : Bool) : Option Ty → Outcome String
  | some t => if isMain then .ok "void" else typeText t
  | none => .ok "void"

def emitFunc (l : Layout) (f : Func) : Outcome FuncCode := do
  let name ← f.getName
  let isMain := name == "main"
  let is ← f.body
  let c ← Context.ofBody isMain is
  let result ← resultText isMain f.type
  let params ← (← f.paramList).mapM fun p => do
    return (← typeText (← p.getType), ← p.getName)
  return { result, name, params, body := ← emitBody l c is }

def mainParams (fs : List Func) : Outcome (List Param) :=
  fs.foldlM (fun ps f => do
    if f.name == some "main" then return (← f.paramList?).getD ps else return ps) []

def structList (p : Program) : Outcome (List Struct) :=
  match p.structs, p.extra.lookup "structs" with
  | some ss, _ => .ok ss
  | none, none => .ok []
  | none, some (.str "") => .ok []
  | none, some (.record []) => .ok []
  | none, some _ => .error .kind

def emitModule (p : Program) : Outcome Module := do
  let fs ← (← p.funcs).mapM Ssa.Stacked.enter
  let (l, structs) ← Layout.declareAll {} (← structList p)
  let funcs ← fs.mapM (emitFunc l)
  return { structs, funcs, entry := ← entryText (← mainParams fs) }

def emit (p : Program) : Outcome String := do return (← emitModule p).render

def emitWhole (source : String) (p : Program) : Outcome String := do
  return banner source ++ (← emit p)

end Llvm

end BrilKit
