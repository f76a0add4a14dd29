import BrilKit.Data.Iterate
import BrilKit.FlowGraph.Build
import BrilKit.FlowGraph.Merge

/-!
# Dominance on flow graphs

Every block keeps one set for each incoming edge and a set of its own. A block's set is the
intersection of the incoming ones with the block itself added; the sets start empty and grow.
-/

namespace BrilKit

namespace FlowGraph

/-- The sets of a run that computes dominators. -/
structure DomState where
  /-- For each block the sets that came in over its edges. -/
  ins : List (List (List Nat))
  outs : List (List Nat)
  pending : List Nat

namespace DomState

def initial (g : FlowGraph) : DomState where
  ins := g.map fun n => n.pred.map fun _ => []
  outs := g.map fun _ => []
  pending := [0]

def outSet (s : DomState) (k : Nat) : Outcome (List Nat) := do
  return Members.add (Merge.meetSets false (← itemAt s.ins k)) k

def pass (g : FlowGraph) (k : Nat) (out : List Nat) (s : DomState) (target : Nat) :
    Outcome DomState := do
  let node ← itemAt g target
  let slot ← slot node.pred k
  let sets ← itemAt s.ins target
  return { s with ins := s.ins.set target (sets.set slot out),
                  pending := Members.add s.pending target }

def step (g : FlowGraph) (s : DomState) : Outcome DomState :=
  match s.pending with
  | [] => .ok s
  | k :: rest => do
    let out ← s.outSet k
    let old ← itemAt s.outs k
    let s := { s with pending := rest }
    if Members.same out old then return s
    else
      let node ← itemAt g k
      node.succ.foldlM (pass g k out) { s with outs := s.outs.set k out }

/-- The steps a run can take: each set changes at most once for every block. -/
def bound (g : FlowGraph) : Nat := (g.length + 1) * (g.edgeCount + 1) + 2

def settle (g : FlowGraph) : Outcome DomState :=
  Iterate.run (fun s => s.pending.isEmpty) (step g) (bound g) (initial g)

end DomState

/-- The frontier of every block: the blocks into which a set carries it, but whose own set it is
not in. A block is listed once for every edge that carries it. -/
def frontier (s : DomState) : Table Nat (List Nat) :=
  (s.ins.zip s.outs).zipIdx.foldl (fun t ((sets, out), k) =>
    sets.foldl (fun t set =>
      (sortNats set).foldl (fun t d =>
        if out.contains d then t else t.alter d fun ks => ks.getD [] ++ [k]) t) t) .empty

end FlowGraph

end BrilKit
