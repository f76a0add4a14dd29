import BrilKit.IndexGraph.Walk

/-!
# Dominance over block numbers

For each block the set of blocks that dominate it, found by going through the blocks in reverse
postorder until nothing changes. The first block of that order keeps its initial set.
-/

namespace BrilKit

namespace IndexGraph

structure Dominance where
  doms : List (List Nat)
  dominated : List (List Nat)
  /-- The blocks below each block in the dominator tree; nothing is above the first. -/
  tree : Table (Option Nat) (List Nat)
  frontier : List (List Nat)

def domUpdate (g : IndexGraph) (doms : List (List Nat)) (k : Nat) : List Nat :=
  let ps := g.preds.getD k []
  if ps.isEmpty then [k]
  else
    let common := ps.foldl (fun s p => Members.meet s (doms.getD p [])) g.indices
    Members.add common k

def domRound (g : IndexGraph) (order : List Nat) (doms : List (List Nat)) :
    List (List Nat) × Bool :=
  order.foldl (fun (doms, changed) k =>
    let d := domUpdate g doms k
    if Members.same d (doms.getD k []) then (doms, changed) else (doms.set k d, true)) (doms, false)

def domSettle (g : IndexGraph) (order : List Nat) :
    Nat → List (List Nat) → Outcome (List (List Nat))
  | 0, _ => .error .unsettled
  | fuel + 1, doms =>
    let (doms, changed) := domRound g order doms
    if changed then domSettle g order fuel doms else .ok doms

def dominators (g : IndexGraph) : Outcome (List (List Nat)) := do
  let order ← g.reversePostorder
  let start := g.indices.map fun k => if k = 0 then [0] else g.indices
  domSettle g order.tail (g.size * g.size + g.size + 2) start

def dominatedBy (doms : List (List Nat)) : List (List Nat) :=
  (List.range doms.length).map fun k =>
    (List.range doms.length).filter fun i => (doms.getD i []).contains k

def isImmediate (doms : List (List Nat)) (i j : Nat) : Bool :=
  i != j && (List.range doms.length).all fun k =>
    k == j || k == i || !(doms.getD k []).contains j || !(doms.getD i []).contains k

/-- The immediate dominators of the blocks behind the first, in order, where they exist. -/
def parents (doms : List (List Nat)) : List (Option Nat) :=
  none :: (List.range doms.length).tail.filterMap fun i =>
    ((sortNats (doms.getD i [])).find? (isImmediate doms i)).map some

/-- The tree of a list of parents: the position in the list is the block. -/
def treeOf (parents : List (Option Nat)) : Table (Option Nat) (List Nat) :=
  parents.zipIdx.foldl (fun t (p, k) => t.alter p fun ks => ks.getD [] ++ [k]) .empty

/-- The dominance frontier of all blocks: a block is in the frontier of the dominators of its
predecessors that do not strictly dominate it. -/
def frontiers (g : IndexGraph) (doms : List (List Nat)) : List (List Nat) :=
  let reach (i : Nat) : List Nat :=
    let before := Members.unionAll ((g.preds.getD i []).map fun p => doms.getD p [])
    before.filter fun p => p == i || !(doms.getD i []).contains p
  g.indices.map fun k => g.indices.filter fun i => (reach i).contains k

def dominance (g : IndexGraph) : Outcome Dominance := do
  let doms ← g.dominators
  return { doms, dominated := dominatedBy doms, tree := treeOf (parents doms),
           frontier := g.frontiers doms }

end IndexGraph

end BrilKit
