import BrilKit.Data.Iterate
import BrilKit.Data.Members
import BrilKit.FlowGraph.Build

/-!
# Where pointers can point

For every pointer variable the set of allocations that it can point into: an allocation is named by
its block and position, and `all` stands for memory of unknown origin.
-/

namespace BrilKit

namespace Memory

abbrev PointsTo := Table String (List String)

def anywhere : String := "all"

def allocation (block position : Nat) : String := toString block ++ " " ++ toString position

def joinAll (tables : List PointsTo) : PointsTo :=
  tables.foldl (fun out t => t.entries.foldl (fun out (x, places) =>
    out.alter x fun old => Members.addAll (old.getD []) places) out) .empty

def PointsTo.same (t u : PointsTo) : Bool := Table.sameBy Members.same t u

def setPlaces (t : PointsTo) (dest : Option String) (places : List String) : PointsTo :=
  match dest with
  | some d => t.put d (Members.ofList places)
  | none => t

/-- The result points where the first operand does. The old places of the result are forgotten
first. -/
def copyPlaces (t : PointsTo) (i : Instr) : Outcome PointsTo := do
  let t := setPlaces t i.dest []
  let x ← itemAt (← i.getArgs) 0
  return setPlaces t i.dest (← t.fetch x)

def phiPlaces (t : PointsTo) (i : Instr) : Outcome PointsTo := do
  let t := setPlaces t i.dest []
  let xs ← i.getArgs
  return setPlaces t i.dest (xs.flatMap fun x => t.getD x [])

def givesPointer (i : Instr) : Outcome Bool := do return (← i.getType).isRecord

/-- What an instruction at a position of a block does to the table; `none` when it is of no
concern. -/
def aliasStep (block : Nat) (t : PointsTo) (i : Instr) (position : Nat) :
    Outcome (Option PointsTo) := do
  match i.op with
  | some "alloc" => return some (setPlaces t i.dest [allocation block position])
  | some "ptradd" => return some (← copyPlaces t i)
  | some "load" =>
    if ← givesPointer i then return some (setPlaces t i.dest [anywhere]) else return some t
  | some "id" => if ← givesPointer i then return some (← copyPlaces t i) else return some t
  | some "phi" => if ← givesPointer i then return some (← phiPlaces t i) else return none
  | some "call" =>
    if i.dest.isSome then
      if ← givesPointer i then return some (setPlaces t i.dest [anywhere]) else return none
    else return none
  | _ => return none

def aliasBlock (block : Nat) (b : Block) (start : PointsTo) : Outcome PointsTo :=
  b.zipIdx.foldlM (fun t (i, position) => do
    return (← aliasStep block t i position).getD t) start

structure AliasState where
  ins : List (List PointsTo)
  outs : List PointsTo
  touched : List Bool
  pending : List Nat

/-- What is known at the start of a function: pointer parameters can point anywhere. It is there
only when there are parameters. -/
def paramPlaces (f : Func) : Outcome (List PointsTo) := do
  match f.params with
  | [] => return []
  | ps =>
    let t ← ps.foldlM (fun (t : PointsTo) p => do
      if (← p.getType).isRecord then return t.put (← p.getName) [anywhere] else return t) .empty
    return [t]

def AliasState.initial (g : FlowGraph) (start : List PointsTo) : AliasState :=
  let ins := g.map fun n => n.pred.map fun _ => Table.empty
  { ins := ins.set 0 (ins.headD [] ++ start)
    outs := g.map fun _ => .empty
    touched := g.map fun _ => false
    pending := [0] }

def passPlaces (g : FlowGraph) (k : Nat) (t : PointsTo) (changed : Bool) (s : AliasState)
    (target : Nat) : Outcome AliasState := do
  let node ← itemAt g target
  let slot ← FlowGraph.slot node.pred k
  if changed || !s.touched.getD target true then
    let tables ← itemAt s.ins target
    return { s with ins := s.ins.set target (tables.set slot t),
                    touched := s.touched.set target true, pending := s.pending ++ [target] }
  else return s

def visitAlias (g : FlowGraph) (s : AliasState) : Outcome AliasState :=
  match s.pending with
  | [] => .ok s
  | k :: rest => do
    let node ← itemAt g k
    let t ← aliasBlock k node.block (joinAll (← itemAt s.ins k))
    let changed := !t.same (← itemAt s.outs k)
    let s := { s with pending := rest, outs := if changed then s.outs.set k t else s.outs }
    node.succ.foldlM (passPlaces g k t changed) s

/-- The number of visits that the flow can need: a table grows by a place of a variable at a time,
and growth is passed on over the edges. -/
def aliasBound (g : FlowGraph) : Nat :=
  let size := g.body.length + 2
  (g.length + 1) * (g.edgeCount + 1) * size * (size + 1) + 2

def settleAlias (f : Func) (g : FlowGraph) : Outcome AliasState := do
  let start ← paramPlaces f
  Iterate.run (fun s => s.pending.isEmpty) (visitAlias g) (aliasBound g) (.initial g start)

def combine (outs : List PointsTo) : Outcome PointsTo :=
  outs.foldlM (fun all t => t.entries.foldlM (fun (all : PointsTo) (x, places) =>
    match all.get? x with
    | some old => do
      Outcome.guard (Members.same old places) (.violated "")
      return all
    | none => .ok (all.put x places)) all) .empty

end Memory

end BrilKit
