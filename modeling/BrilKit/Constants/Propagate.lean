import BrilKit.Constants.Words
import BrilKit.Data.Iterate
import BrilKit.FlowGraph.Build
import BrilKit.FlowGraph.Merge

/-!
# Propagation of constants through a flow graph

Known constants flow along the edges; where edges meet, what all of them agree on remains. On the
way operations on known constants are replaced by their results.
-/

namespace BrilKit

namespace Constants

abbrev Known := Table String Datum

def operand (known : Known) (x : String) : String × Bool :=
  match known.get? x with
  | some d => (d.text, true)
  | none => (x, false)

/-- The texts of the operands of an instruction, and whether all are constant: its value, or the
variables that it reads; `none` when it has neither. -/
def operands (known : Known) (i : Instr) : Option (List String × Bool) :=
  match i.value, i.args with
  | some d, _ => some ([d.text], true)
  | none, some xs =>
    let os := xs.map (operand known)
    some (os.map Prod.fst, os.all Prod.snd)
  | none, none => none

def result (i : Instr) (op : String) (args : List String) (allConst : Bool) :
    Outcome (Option Datum) :=
  if allConst && i.dest.isSome then do return some (← Words.eval op i.type args)
  else
    match args with
    | [a, b] => .ok (if a = b then (Words.reflexive op).map .bool else none)
    | _ => .ok none

/-- Replace an instruction by its constant result, if it has one, and note the constant. Calls
and instructions of type `float` are left alone. -/
def step (known : Known) (i : Instr) : Outcome (Known × Instr) :=
  if i.type = some (.name "float") then .ok (known, i)
  else
    match i.op with
    | none => .ok (known, i)
    | some op =>
      if op == "call" then .ok (known, i)
      else
        match operands known i with
        | none => .ok (known, i)
        | some (args, allConst) => do
          match ← result i op args allConst, i.dest with
          | some d, some x => return (known.put x d, i.toConst d)
          | _, _ => return (known, i)

def block : Known → Block → Outcome (Known × Block)
  | known, [] => .ok (known, [])
  | known, i :: is => do
    let (known, i) ← step known i
    let (known, is) ← block known is
    return (known, i :: is)

structure State where
  blocks : List Block
  ins : List (List Known)
  outs : List Known
  touched : List Bool
  pending : List Nat

def State.initial (g : FlowGraph) : State where
  blocks := g.blocks
  ins := g.map fun n => n.pred.map fun _ => .empty
  outs := g.map fun _ => .empty
  touched := g.map fun _ => false
  pending := [0]

def State.push (s : State) (k : Nat) : State :=
  if s.pending.contains k then s else { s with pending := k :: s.pending }

def pass (g : FlowGraph) (k : Nat) (known : Known) (s : State) (target : Nat) : Outcome State := do
  let s := s.push target
  let node ← itemAt g target
  let slot ← FlowGraph.slot node.pred k
  let tables ← itemAt s.ins target
  return { s with ins := s.ins.set target (tables.set slot known) }

def reach (s : State) (target : Nat) : State :=
  if s.touched.getD target true then s else s.push target

def visit (g : FlowGraph) (s : State) : Outcome State :=
  match s.pending with
  | [] => .ok s
  | k :: rest => do
    let node ← itemAt g k
    let start ← Merge.agreed (← itemAt s.ins k)
    let (known, b) ← block start (← itemAt s.blocks k)
    let old ← itemAt s.outs k
    let s := { s with pending := rest, blocks := s.blocks.set k b, touched := s.touched.set k true }
    if known.sameBy Datum.same old then return node.succ.foldl reach s
    else
      let s ← node.succ.foldlM (pass g k known) s
      return { s with outs := s.outs.set k known }

/-- The number of visits that a propagation can need: what is known at the end of a block grows by
a variable at a time, and growth is passed on over the edges. -/
def bound (g : FlowGraph) : Nat :=
  let names := (g.body.filterMap Instr.dest).length
  (g.length + 1) * (names + 2) * (g.edgeCount + 1) + g.length + 2

def body (is : List Instr) : Outcome (List Instr) := do
  let g ← FlowGraph.ofBody .full is
  let s ← Iterate.run (fun s => s.pending.isEmpty) (visit g) (bound g) (State.initial g)
  return s.blocks.flatten

end Constants

end BrilKit
