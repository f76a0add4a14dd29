import BrilKit.Data.Json.Writer
import BrilKit.Dominance.Basic
import BrilKit.Program.Basic

/-!
# Listings of the dominance relation

For each function a JSON record from block names to sorted lists of block names.
-/

namespace BrilKit

namespace Dominators

inductive View where
  | dominators
  | frontiers
  | tree

def View.relation (v : View) (dom succ : FlowMap) : Outcome FlowMap :=
  match v with
  | .dominators => .ok dom
  | .frontiers => Dominators.frontiers dom succ
  | .tree => Dominators.tree dom

def listFunc (v : View) (f : Func) : Outcome String := do
  let blocks ← NamedBlocks.explicit (← f.body)
  let succ ← blocks.successors
  let dom ← compute succ (← blocks.entry)
  let rel ← v.relation dom succ
  let fields := rel.entries.map fun (n, ns) => (n, Datum.list ((sortNames ns).map .str))
  return Json.pretty (.record fields) ++ "\n"

def list (v : View) (p : Program) : Outcome String := do
  return String.join (← (← p.funcs).mapM (listFunc v))

end Dominators

end BrilKit
