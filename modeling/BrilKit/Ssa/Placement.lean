import BrilKit.Dominance.Basic

/-!
# Where variables need a phi

A variable that is assigned in several blocks needs a phi where their values meet: in the dominance
frontier of each of these blocks and, as a phi is an assignment too, in the frontiers of those.
-/

namespace BrilKit

namespace Ssa

def definingBlocks (blocks : NamedBlocks) : FlowMap :=
  blocks.entries.foldl (fun defs (n, b) =>
    b.foldl (fun defs i =>
      match i.dest with
      | some d => defs.alter d fun ns => Members.add (ns.getD []) n
      | none => defs) defs) .empty

/-- The phis found so far and the blocks that assign the variable at hand. -/
structure Placing where
  phis : FlowMap
  blocks : List String

/-- Put a phi for a variable at the start of a block, unless it has one already. -/
def Placing.at_ (v : String) (s : Placing) (block : String) : Outcome Placing := do
  let vs ← s.phis.fetch block
  if vs.contains v then return s
  else
    return { phis := s.phis.put block (vs ++ [v]), blocks := Members.add s.blocks block }

/-- Go through the assigning blocks from a position on; blocks that get a phi are appended. -/
def placeFrom (frontiers : FlowMap) (v : String) : Nat → Nat → Placing → Outcome Placing
  | 0, _, _ => .error .unsettled
  | fuel + 1, k, s =>
    match s.blocks[k]? with
    | none => .ok s
    | some d => do
      let s ← (← frontiers.fetch d).foldlM (Placing.at_ v) s
      placeFrom frontiers v fuel (k + 1) s

/-- For every block the variables that need a phi there. A block is appended at most once to the
list of each variable, so the number of blocks bounds the passes and none is left `unsettled`. -/
def placePhis (blocks : NamedBlocks) (frontiers defs : FlowMap) : Outcome FlowMap :=
  defs.entries.foldlM (fun phis (v, ds) => do
    let s ← placeFrom frontiers v (ds.length + blocks.size + 1) 0 ⟨phis, ds⟩
    return s.phis) (blocks.map fun _ => [])

end Ssa

end BrilKit
