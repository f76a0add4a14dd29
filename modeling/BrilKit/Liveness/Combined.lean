import BrilKit.Liveness.FromExits

/-!
# Liveness and removal of dead code in one computation

First the live variables are computed from the exits. Then every block is pruned; as a pruned block
reads less, the sets before it are computed again, and its predecessors are pruned again.
-/

namespace BrilKit

namespace Liveness

def State.beginPruning (s : State) : State :=
  { s with pruning := true, pending := (List.range s.blocks.length).reverse }

/-- The number of visits that the pruning can need: between two removals sets change as in the
first computation. -/
def pruningBound (g : FlowGraph) : Nat := bound g * (g.body.length + 2)

def prune (g : FlowGraph) : Outcome State := do
  let s ← compute g
  Iterate.run (fun s => s.pending.isEmpty) (visit g) (pruningBound g) s.beginPruning

def pruneFunc (style : FlowGraph.Style) (f : Func) : Outcome Func := do
  let g ← f.labelledGraph style false
  return f.withBody (← prune g).blocks.flatten

end Liveness

end BrilKit
