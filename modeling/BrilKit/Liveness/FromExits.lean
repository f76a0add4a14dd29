import BrilKit.Data.Iterate
import BrilKit.FlowGraph.Build
import BrilKit.Liveness.Block

/-!
# Liveness from the exits of a flow graph

The computation starts at the blocks without successors and goes backward over the edges. Each
block keeps one set for every outgoing edge and the set at its start.
-/

namespace BrilKit

namespace Liveness

structure State where
  blocks : List Block
  /-- For each block the sets that came in over its outgoing edges. -/
  outs : List (List (List String))
  ins : List (List String)
  touched : List Bool
  pending : List Nat
  pruning : Bool := false

def exitBlocks (g : FlowGraph) : List Nat :=
  ((g.zipIdx.filter fun n => n.1.succ.isEmpty).map Prod.snd).reverse

def State.initial (g : FlowGraph) : State where
  blocks := g.blocks
  outs := g.map fun n => n.succ.map fun _ => []
  ins := g.map fun _ => []
  touched := g.map fun _ => false
  pending := exitBlocks g

def State.push (s : State) (k : Nat) : State :=
  if s.pending.contains k then s else { s with pending := k :: s.pending }

def State.liveOut (s : State) (k : Nat) : Outcome (List String) := do
  return Members.unionAll (← itemAt s.outs k)

def pass (g : FlowGraph) (k : Nat) (live : List String) (s : State) (source : Nat) :
    Outcome State := do
  let s := s.push source
  let node ← itemAt g source
  let slot ← FlowGraph.slot node.succ k
  let sets ← itemAt s.outs source
  return { s with outs := s.outs.set source (sets.set slot live) }

def reach (s : State) (source : Nat) : State :=
  if s.touched.getD source true then s else s.push source

def State.process (s : State) (k : Nat) : Outcome (Block × List String) := do
  let b ← itemAt s.blocks k
  let live ← s.liveOut k
  return if s.pruning then pruneBlock b live else (b, blockStart b live)

def visit (g : FlowGraph) (s : State) : Outcome State :=
  match s.pending with
  | [] => .ok s
  | k :: rest => do
    let (b, live) ← s.process k
    let node ← itemAt g k
    let old ← itemAt s.ins k
    let s := { s with pending := rest, blocks := s.blocks.set k b, touched := s.touched.set k true }
    if Members.same live old then return node.pred.foldl reach s
    else
      let s ← node.pred.foldlM (pass g k live) s
      return { s with ins := s.ins.set k live }

/-- The number of visits that the computation can need: sets grow by a variable at a time, and
growth is passed on over the edges. -/
def bound (g : FlowGraph) : Nat :=
  let names := (g.body.flatMap fun i => i.dest.toList ++ i.uses).length
  (g.length + 1) * (names + 2) * (g.edgeCount + 1) + g.length + 2

def settle (g : FlowGraph) (s : State) : Outcome State :=
  Iterate.run (fun s => s.pending.isEmpty) (visit g) (bound g) s

def compute (g : FlowGraph) : Outcome State := settle g (State.initial g)

/-- A block without dead operations, found again and again until there is none, by the variables
live at its end. -/
def pruneRepeatedly : Nat → List String → Block → Block
  | 0, _, b => b
  | n + 1, live, b =>
    let (c, _) := pruneBlock b live
    if c.length = b.length then c else pruneRepeatedly n live c

def pruneBody (is : List Instr) : Outcome (List Instr) := do
  let g ← FlowGraph.ofBody .full is
  let s ← compute g
  let bs ← s.blocks.zipIdx.mapM fun (b, k) => do
    return pruneRepeatedly (b.length + 1) (← s.liveOut k) b
  return bs.flatten

end Liveness

end BrilKit
