import BrilKit.Block.Named

/-!
# Dominance on named blocks

From the successors of every block: a postorder, the sets of dominators, the dominance frontiers
and the dominator tree. Dominators are found by shrinking the full sets until the equations hold.
-/

namespace BrilKit

namespace FlowMap

def invert (m : FlowMap) : Outcome FlowMap :=
  m.entries.foldlM (fun out (p, ss) => ss.foldlM (fun out s => NamedBlocks.addPred out p s) out)
    (m.map fun _ => [])

/-- Visit the nodes below `root` that are not explored yet, children first. The second part of
the state lists the nodes in the order in which they are left. Each level of the recursion explores
a node, so the number of nodes bounds its depth. -/
def visit (succ : FlowMap) :
    Nat → String → List String × List String → Outcome (List String × List String)
  | 0, _, _ => .error .unsettled
  | fuel + 1, root, (explored, out) =>
    if explored.contains root then .ok (explored, out)
    else do
      let ss ← succ.fetch root
      let (explored, out) ←
        ss.foldlM (fun st s => visit succ fuel s st) (root :: explored, out)
      return (explored, out ++ [root])

def postorder (succ : FlowMap) (root : String) : Outcome (List String) := do
  return (← visit succ (succ.size + 2) root ([], [])).2

end FlowMap

def intersectAll {α : Type} [BEq α] : List (List α) → List α
  | [] => []
  | s :: ss => ss.foldl Members.meet s

namespace Dominators

def update (pred : FlowMap) (dom : FlowMap) (node : String) : Outcome (List String) := do
  let ps ← pred.fetch node
  let sets ← ps.mapM dom.fetch
  return Members.add (intersectAll sets) node

def round (pred : FlowMap) (nodes : List String) (dom : FlowMap) : Outcome (FlowMap × Bool) :=
  nodes.foldlM (fun (dom, changed) node => do
    let new ← update pred dom node
    let old ← dom.fetch node
    return if Members.same old new then (dom, changed) else (dom.put node new, true)) (dom, false)

/-- Repeat rounds until one changes nothing. The sets of the nodes only shrink, so the number of
rounds is bounded by the sum of their sizes. -/
def settle (pred : FlowMap) (nodes : List String) : Nat → FlowMap → Outcome FlowMap
  | 0, _ => .error .unsettled
  | fuel + 1, dom => do
    let (dom, changed) ← round pred nodes dom
    if changed then settle pred nodes fuel dom else return dom

/-- For every node the nodes that dominate it; for one that is not reachable, all that are. -/
def compute (succ : FlowMap) (entry : String) : Outcome FlowMap := do
  let pred ← succ.invert
  let nodes := (← succ.postorder entry).reverse
  settle pred nodes (nodes.length * nodes.length + 2) (succ.map fun _ => nodes)

/-- The dominance frontier of every node: successors of dominated nodes that are not strictly
dominated. -/
def frontiers (dom succ : FlowMap) : Outcome FlowMap := do
  let inv ← dom.invert
  let es ← dom.keys.mapM fun block => do
    let dominated ← inv.fetch block
    let reached ← dominated.mapM succ.fetch
    let candidates := Members.unionAll reached
    return (block, candidates.filter fun b => !dominated.contains b || b == block)
  return ⟨es⟩

def strict (dom : FlowMap) : Outcome FlowMap := do
  let inv ← dom.invert
  return ⟨inv.entries.map fun (a, bs) => (a, bs.filter fun b => b != a)⟩

/-- The children of every node in the dominator tree: what it strictly dominates with no node
in between. -/
def tree (dom : FlowMap) : Outcome FlowMap := do
  let inv ← strict dom
  let es ← inv.entries.mapM fun (a, bs) => do
    let below ← bs.mapM inv.fetch
    return (a, bs.filter fun b => !(Members.unionAll below).contains b)
  return ⟨es⟩

end Dominators

end BrilKit
