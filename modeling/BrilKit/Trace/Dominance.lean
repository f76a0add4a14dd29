import BrilKit.FlowGraph.Dominance
import BrilKit.Trace.Text

/-!
# Traces of dominance

What happens while the dominators of numbered blocks are computed.
-/

namespace BrilKit

namespace Trace

namespace Dominance

open BrilKit.FlowGraph

def blockTitle (g : FlowGraph) (k : Nat) : String :=
  title ("Block " ++ toString k ++ " (" ++ label (g[k]?.bind Node.label) ++ ")")

def visited (g : FlowGraph) (step : DomState × DomState) : Outcome String := do
  let (s, next) := step
  match s.pending with
  | [] => return ""
  | k :: _ =>
    return blockTitle g k
      ++ line ("init_in: " ++ listText ((← itemAt s.ins k).map natSet))
      ++ line ("init_out: " ++ listText [natSet (← itemAt s.outs k)])
      ++ line ("result_out: " ++ natSet (← s.outSet k))
      ++ line ("worklist: " ++ natList next.pending) ++ rule

def settled (g : FlowGraph) : Outcome (String × DomState) := do
  let start := DomState.initial g
  let states ← Iterate.trail (fun s => s.pending.isEmpty) (DomState.step g) (DomState.bound g) start
  let texts ← (Iterate.pairs states).mapM (visited g)
  return (String.join texts, states.getLast?.getD start)

def frontierLine (t : Table Nat (List Nat)) : String :=
  line ("dom_frontier: " ++ tableText (t.entries.map fun (k, ks) => (toString k, natList ks)))

end Dominance

end Trace

end BrilKit
