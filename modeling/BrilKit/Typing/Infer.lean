import BrilKit.Program.Basic

/-!
# Type inference

The types `int` and `bool` of variables follow from the operations that read and assign them.
-/

namespace BrilKit

namespace Typing

def arithmetic : List String := ["add", "mul", "sub", "div"]

def comparison : List String := ["eq", "lt", "gt", "le", "ge"]

def logic : List String := ["not", "and", "or"]

abbrev Context := Table String String

def clash (position : Nat) (x expected found : String) : Fault :=
  .illTyped ("(stmt " ++ toString position ++ ") Expected \"" ++ x ++ "\" to have type \""
    ++ expected ++ "\" but found \"" ++ found ++ "\"")

def learn (position : Nat) (t : String) (ctx : Context) (x : String) : Outcome Context :=
  match ctx.get? x with
  | some found => if found = t then .ok ctx else .error (clash position x t found)
  | none => .ok (ctx.put x t)

def learnOperation (position : Nat) (operand result : String) (ctx : Context) (i : Instr) :
    Outcome Context := do
  let ctx ← (← i.getArgs).foldlM (learn position operand) ctx
  learn position result ctx (← i.getDest)

def constType : Datum → String
  | .bool _ => "bool"
  | _ => "int"

def learnInstr (position : Nat) (ctx : Context) (i : Instr) (op : String) : Outcome Context := do
  if op == "const" then
    let v ← i.getValue
    learn position (constType v) ctx (← i.getDest)
  else if arithmetic.contains op then learnOperation position "int" "int" ctx i
  else if comparison.contains op then learnOperation position "int" "bool" ctx i
  else if logic.contains op then learnOperation position "bool" "bool" ctx i
  else if op == "br" then learn position "bool" ctx (← itemAt (← i.getArgs) 0)
  else if op == "id" then
    let source ← itemAt (← i.getArgs) 0
    match ctx.get? source with
    | some t => learn position t ctx (← i.getDest)
    | none => return ctx
  else return ctx

def untouched : List String := ["ret", "jmp", "print", "nop"]

def annotate (ctx : Context) (i : Instr) : Instr :=
  match i.dest.bind ctx.get? with
  | some t => { i with type := some (.name t) }
  | none => i

def inferInstr (position : Nat) (ctx : Context) (i : Instr) : Outcome (Context × Instr) :=
  match i.op with
  | none => .ok (ctx, i)
  | some op =>
    if untouched.contains op then .ok (ctx, i)
    else do
      let ctx ← learnInstr position ctx i op
      return (ctx, annotate ctx i)

def inferRound : Nat → Context → List Instr → Outcome (Context × List Instr)
  | _, ctx, [] => .ok (ctx, [])
  | position, ctx, i :: is => do
    let (ctx, i) ← inferInstr position ctx i
    let (ctx, is) ← inferRound (position + 1) ctx is
    return (ctx, i :: is)

/-- Rounds until one learns nothing. Each round before learns about a variable. -/
def inferWithin : Nat → Context → List Instr → Outcome (List Instr)
  | 0, _, _ => .error .unsettled
  | fuel + 1, ctx, is => do
    let (next, js) ← inferRound 0 ctx is
    if next.size = ctx.size then return js else inferWithin fuel next js

def occurrences (is : List Instr) : Nat :=
  is.foldl (fun n i => n + (i.uses.length + i.dest.toList.length)) 0

def inferBody (is : List Instr) : Outcome (List Instr) :=
  inferWithin (occurrences is + 2) .empty is

/-- The functions of a program with the inferred types written in; nothing else of the program
is kept. -/
def infer (p : Program) : Outcome Program := do
  let fs ← (← p.funcs).mapM (Func.mapBodyM inferBody)
  return { functions := some fs }

end Typing

end BrilKit
