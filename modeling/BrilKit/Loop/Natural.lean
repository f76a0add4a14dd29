import BrilKit.FlowGraph.Dominance

/-!
# Natural loops

A back edge leads to a block that dominates its source. The loop of a back edge consists of its two
ends and of all blocks that reach the source without passing the target.
-/

namespace BrilKit

structure Loop where
  preheader : Nat
  /-- The blocks of the loop; the target of the back edge comes last. -/
  nodes : List Nat
  /-- The end of the back edge from which the loop is left. -/
  header : Nat
  exit : Nat
deriving Repr, DecidableEq

namespace Loop

def backEdgesFrom (out : List Nat) (node : Node) (k : Nat) : Outcome (List (Nat × Nat)) := do
  let es := (node.succ.filter out.contains).map fun t => (t, k)
  Outcome.guard (decide (es.length ≤ 1)) (.violated "Multiple back edges detected")
  return es

def backEdges (g : FlowGraph) (outs : List (List Nat)) : Outcome (List (Nat × Nat)) := do
  let es ← (g.zip outs).zipIdx.mapM fun ((node, out), k) => backEdgesFrom out node k
  return es.flatten

/-- The blocks that reach the stacked ones without passing `front`. Every block is entered once,
and each edge is followed once. -/
def reaching (g : FlowGraph) (front : Nat) : Nat → List Nat → List Nat → List Nat
  | 0, found, _ => found
  | _ + 1, found, [] => found
  | fuel + 1, found, k :: stack =>
    if found.contains k then reaching g front fuel found stack
    else
      let found := k :: found
      let preds := (g[k]?.map Node.pred).getD []
      let new := preds.filter fun p => !found.contains p && p != front
      reaching g front fuel found (new ++ stack)

/-- The first way out of the loop at a block: a successor outside that the block dominates. -/
def wayOut (g : FlowGraph) (outs : List (List Nat)) (nodes : List Nat) (k : Nat) :
    Outcome (Option Nat) := do
  let node ← itemAt g k
  let outside := node.succ.filter fun s => !nodes.contains s
  let sets ← outside.mapM fun s => do return (s, ← itemAt outs s)
  return (sets.find? fun (_, set) => set.contains k).map Prod.fst

/-- The block before a loop: the predecessor of its target that the back edge does not start at. -/
def preheaderOf (g : FlowGraph) (front back : Nat) : Outcome Nat := do
  let node ← itemAt g front
  Outcome.guard (decide (node.pred.length = 2)) (.violated "Multiple pre-header detected")
  let k ← FlowGraph.slot node.pred back
  itemAt node.pred ((k + 1) % 2)

def ofBackEdge (g : FlowGraph) (outs : List (List Nat)) (edge : Nat × Nat) : Outcome Loop := do
  let (front, back) := edge
  let preheader ← preheaderOf g front back
  let others := reaching g front (g.length + g.edgeCount + 2) [] [back]
  let nodes := sortNats others ++ [front]
  let ends ← [front, back].mapM fun k => do return (k, ← wayOut g outs nodes k)
  match ends.filterMap fun (k, way) => way.map fun exit => (k, exit) with
  | [(header, exit)] => return { preheader, nodes, header, exit }
  | _ => .error (.violated "Multiple header detected")

def findAll (g : FlowGraph) : Outcome (List Loop × List (List Nat)) := do
  let outs := (← FlowGraph.DomState.settle g).outs
  let edges ← backEdges g outs
  return (← edges.mapM (ofBackEdge g outs), outs)

end Loop

end BrilKit
