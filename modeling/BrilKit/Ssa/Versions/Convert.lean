import BrilKit.Ssa.Versions.Link

/-!
# Conversion with numbered versions

The whole conversion of a function. The block that copies the parameters to themselves gives them
their first versions; in the end it is emptied and the parameters take the names of these versions.
-/

namespace BrilKit

namespace Ssa

def paramVersions (b : Block) : Outcome Versions :=
  b.foldlM (fun t i =>
    match i.op with
    | none => .ok t
    | some op => do
      Outcome.guard (op == "id") (.violated "")
      let x ← itemAt (← i.getArgs) 0
      return t.put x (← i.getDest)) .empty

def renameParam (versions : Versions) (p : Param) : Outcome Param := do
  return { p with name := some (← versions.fetch (← p.getName)) }

def isCopyBlock (g : FlowGraph) : Outcome Bool :=
  match (g.head?.bind Node.label) with
  | some l => .ok (decide (2 ≤ (l.splitOn "dummy_entry").length))
  | none => .error .kind

/-- Give the parameters the names of their first versions and empty the block of copies. -/
def finish (f : Func) (g : FlowGraph) (blocks : List Block) : Outcome Func := do
  if ← isCopyBlock g then
    let first ← itemAt blocks 0
    let versions ← paramVersions first
    let ps ← Outcome.ofOption "args" (← f.paramList?)
    let ps ← ps.mapM (renameParam versions)
    let kept := first.filter fun i => !i.isOp && i.setsLabel
    return { f with args := f.args.map fun _ => ps, instrs := some (blocks.set 0 kept).flatten }
  else return f.withBody blocks.flatten

def convertBy (order : SiteOrder) (style : Style) (f : Func) : Outcome Func := do
  let g ← f.labelledGraph style.graph true
  let numbered ← numberBy order style g
  finish f g (← link style g numbered)

def convert : Style → Func → Outcome Func := convertBy .listed

end Ssa

end BrilKit
