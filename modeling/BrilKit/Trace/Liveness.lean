import BrilKit.Liveness.Combined
import BrilKit.Trace.Text

/-!
# Traces of liveness

What happens while live variables are computed and dead operations are removed.
-/

namespace BrilKit

namespace Trace

namespace Liveness

open BrilKit.Liveness

def passed (i : Instr) : String :=
  lines (["[+] inst dut: " ++ instr i] ++ i.dest.toList.map (fun d => "[++] discard " ++ d)
    ++ i.uses.map fun x => "[++] add " ++ x)

def backward (b : Block) (live : List String) : String :=
  line ("initial used_set: " ++ nameSet live) ++ String.join (b.reverse.map passed)

def visited (step : State × State) : Outcome String := do
  let (s, next) := step
  match s.pending with
  | [] => return ""
  | k :: _ =>
    let (_, live) ← s.process k
    let b ← itemAt s.blocks k
    let out ← s.liveOut k
    let way := if s.pruning then "" else backward b out
    return title ("Block " ++ toString k)
      ++ line ("out: " ++ listText ((← itemAt s.outs k).map nameSet)) ++ way
      ++ line ("used_set: " ++ nameSet live) ++ line ("worklist: " ++ natList next.pending.reverse)
      ++ rule

def settled (g : FlowGraph) (fuel : Nat) (s : State) : Outcome (String × State) := do
  let states ← Iterate.trail (fun s => s.pending.isEmpty) (visit g) fuel s
  let texts ← (Iterate.pairs states).mapM visited
  return (String.join texts, states.getLast?.getD s)

/-- The lines of the removal of dead operations from a block, until there are none. -/
def pruned (k : Nat) (s : State) (live : List String) : Nat → Block → String
  | 0, _ => ""
  | n + 1, b =>
    let here := title ("Block " ++ toString k) ++ line "out:"
      ++ lines ((s.outs.getD k []).map nameSet) ++ line "in:" ++ line (nameSet (s.ins.getD k []))
    let (c, _) := pruneBlock b live
    if c.length = b.length then here else here ++ pruned k s live n c

def fromExits (f : Func) : Outcome String := do
  let g ← FlowGraph.ofBody .full (← f.body)
  let (text, s) ← settled g (bound g) (State.initial g)
  let removals ← s.blocks.zipIdx.mapM fun (b, k) => do
    return pruned k s (← s.liveOut k) (b.length + 1) b
  return text ++ title "Local Dead Code Elimination" ++ String.join removals

def combined (style : FlowGraph.Style) (f : Func) : Outcome String := do
  let g ← f.labelledGraph style false
  let (text, s) ← settled g (bound g) (State.initial g)
  let (rest, _) ← settled g (pruningBound g) s.beginPruning
  return text ++ rest

end Liveness

end Trace

end BrilKit
