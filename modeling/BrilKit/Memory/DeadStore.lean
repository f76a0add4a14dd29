import BrilKit.FlowGraph.Merge
import BrilKit.Memory.Alias

/-!
# Removal of dead stores

Going backward, the pointers are known through which memory is stored to before it is loaded from.
A store through such a pointer is dead. A load through a pointer that can point to the same place
ends this.
-/

namespace BrilKit

namespace Memory

def mayMeet (a b : List String) : Bool :=
  a.contains anywhere || b.contains anywhere || !(Members.meet a b).isEmpty

def survive (places : PointsTo) (stored : List String) (loaded : String) :
    Outcome (List String) := do
  let target ← places.fetch loaded
  let sets ← stored.mapM fun p => do return (p, ← places.fetch p)
  return (sets.filter fun (_, set) => !mayMeet set target).map Prod.fst

/-- One step backward through a block: the pointers stored to, and whether the instruction is a
dead store. -/
def storeStep (places : PointsTo) (stored : List String) (i : Instr) :
    Outcome (List String × Bool) := do
  match i.op with
  | some "store" =>
    let p ← itemAt (← i.getArgs) 0
    if stored.contains p then return (stored, true) else return (stored ++ [p], false)
  | some "load" => return (← survive places stored (← itemAt (← i.getArgs) 0), false)
  | _ => return (stored, false)

/-- The pointers stored to at the start of a block and the instructions that are not dead, by
the pointers stored to at its end. -/
def storeBlock (places : PointsTo) (stored : List String) : Block → Outcome (List String × Block)
  | [] => .ok (stored, [])
  | i :: is => do
    let (stored, js) ← storeBlock places stored is
    let (stored, dead) ← storeStep places stored i
    return (stored, if dead then js else i :: js)

structure StoreState where
  blocks : List Block
  outs : List (List (List String))
  ins : List (List String)
  pending : List Nat
  removing : Bool := false

def StoreState.initial (g : FlowGraph) : StoreState where
  blocks := g.blocks
  outs := g.map fun n => n.succ.map fun _ => []
  ins := g.map fun _ => []
  pending := (List.range g.length).reverse

def passStored (g : FlowGraph) (k : Nat) (stored : List String) (s : StoreState) (source : Nat) :
    Outcome StoreState := do
  let node ← itemAt g source
  let slot ← FlowGraph.slot node.succ k
  let sets ← itemAt s.outs source
  return { s with outs := s.outs.set source (sets.set slot stored),
                  pending := Members.add s.pending source }

def visitStores (g : FlowGraph) (places : PointsTo) (s : StoreState) : Outcome StoreState :=
  match s.pending with
  | [] => .ok s
  | k :: rest => do
    let node ← itemAt g k
    let b ← itemAt s.blocks k
    let (stored, c) ← storeBlock places (Merge.meetSets false (← itemAt s.outs k)) b
    let old ← itemAt s.ins k
    let s := { s with pending := rest, blocks := if s.removing then s.blocks.set k c else s.blocks }
    if Members.same stored old then return s
    else node.pred.foldlM (passStored g k stored) { s with ins := s.ins.set k stored }

/-- The number of visits that the flow can need: sets grow by a pointer at a time, and growth is
passed on over the edges. -/
def storeBound (g : FlowGraph) : Nat :=
  (g.length + 1) * (g.edgeCount + 1) * (g.body.length + 2) + g.length + 2

def settleStores (g : FlowGraph) (places : PointsTo) (s : StoreState) : Outcome StoreState :=
  Iterate.run (fun s => s.pending.isEmpty) (visitStores g places) (storeBound g) s

def StoreState.beginRemoving (s : StoreState) : StoreState :=
  { s with removing := true, pending := (List.range s.blocks.length).reverse }

def aliases (f : Func) : Outcome (FlowGraph × PointsTo) := do
  let g ← f.labelledGraph .looping false
  return (g, ← combine (← settleAlias f g).outs)

def removeDeadStores (f : Func) : Outcome Func := do
  let (g, places) ← aliases f
  let s ← settleStores g places (.initial g)
  let s ← settleStores g places s.beginRemoving
  return f.withBody s.blocks.flatten

end Memory

end BrilKit
