import BrilKit.Ssa.Versions.Convert
import BrilKit.Trace.Dominance

/-!
# Traces of numbered versions

What happens while phis are put and uses are linked to versions.
-/

namespace BrilKit

namespace Trace

namespace Versions

open BrilKit.Ssa

def siteSet (ss : List Site) : String :=
  setText (ss.map fun (k, t) => "(" ++ toString k ++ ", " ++ t.toDatum.quoted ++ ")")

def siteLine (t : Table String (List Site)) : String :=
  line ("var2block: " ++ tableText (t.entries.map fun (x, ss) => (Quoted.quote x, siteSet ss)))

/-- The lines of phis put into blocks, with the state behind and the blocks that got one. -/
def placed (style : Style) (x : String) (t : Ty) :
    Numbered → List Nat → Outcome (String × Numbered × List Nat)
  | s, [] => .ok ("", s, [])
  | s, k :: ks => do
    let (s, new) ← s.place style x t k
    let here := title ("Insert phi for " ++ x ++ " in block " ++ toString k)
      ++ line (listText ((← itemAt s.blocks k).map instr))
    let (text, s, more) ← placed style x t s ks
    return (here ++ text, s, if new then k :: more else more)

def numbered (style : Style) (frontier : Table Nat (List Nat)) (x : String) :
    Nat → Numbered → List Site → Outcome (String × Numbered)
  | 0, _, _ => .error .unsettled
  | _ + 1, s, [] => .ok ("", s)
  | fuel + 1, s, (k, t) :: rest => do
    let s ← s.rename x k
    let (here, s, new) ← placed style x t s (frontier.getD k [])
    let more := if style.iterated then new.map fun j => (j, t) else []
    let (text, s) ← numbered style frontier x fuel s (rest ++ more)
    return (here ++ text, s)

def numberedAll (style : Style) (g : FlowGraph) (frontier : Table Nat (List Nat)) :
    List Block → List (String × List Site) → Outcome (String × List Block)
  | blocks, [] => .ok ("", blocks)
  | blocks, (x, ss) :: rest => do
    let (here, s) ← numbered style frontier x (siteBound g ss) { blocks } ss
    let (text, blocks) ← numberedAll style g frontier s.blocks rest
    return (here ++ text, blocks)

/-- The line of an operand: the version that it is linked to, if there is one. -/
def linked (force : Ssa.Versions) (x : String) : String :=
  match force.get? x with
  | some v => line ("Replace " ++ x ++ " with " ++ v)
  | none => line ("Error: " ++ x ++ " not defined")

def linkedArgs (pruning : Bool) (force : Ssa.Versions) (i : Instr) : String :=
  if i.hasOp "phi" then ""
  else String.join (i.uses.map fun x => linked force (if pruning then variableOf x else x))

def through (g : FlowGraph) (pred : List Nat) (ins : List Ssa.Versions) (pruning : Bool) :
    Ssa.Versions → Block → Outcome (String × Ssa.Versions)
  | force, [] => .ok ("", force)
  | force, i :: is => do
    let args := linkedArgs pruning force i
    if pruning then
      let (force, j, gone) ← pruneInstr g pred ins force i
      let removal := if gone then
          line ("Remove " ++ label i.dest ++ " and keep " ++ label j.dest) else ""
      let (text, force) ← through g pred ins pruning force is
      return (args ++ removal ++ text, force)
    else
      let (force, _) ← linkInstr g pred ins force i
      let (text, force) ← through g pred ins pruning force is
      return (args ++ text, force)

def visited (g : FlowGraph) (s : Linking) : Outcome String := do
  match s.pending with
  | [] => return ""
  | k :: _ =>
    let node ← itemAt g k
    let ins ← itemAt s.ins k
    let start := inForce ins
    let (text, force) ← through g node.pred ins s.pruning start (← itemAt s.blocks k)
    return Dominance.blockTitle g k ++ line ("in: " ++ listText (ins.map nameTable))
      ++ line ("start_dic: " ++ nameTable start) ++ text
      ++ line ("out start_dic: " ++ nameTable force)

def settled (g : FlowGraph) (s : Linking) : Outcome (String × Linking) := do
  let states ← Iterate.trail (fun s => s.pending.isEmpty) (visitBlock g) (linkBound g) s
  let texts ← states.mapM (visited g)
  return (String.join texts, states.getLast?.getD s)

def converted (style : Style) (f : Func) : Outcome String := do
  let g ← f.labelledGraph style.graph true
  let (dominance, d) ← Dominance.settled g
  let frontier := FlowGraph.frontier d
  let vars ← sites style g
  let (phis, blocks) ← numberedAll style g frontier g.blocks vars.entries
  let (links, s) ← settled g (Linking.initial blocks)
  let (removals, s) ←
    if style.prunes then do
      let (text, s) ← settled g s.beginPruning
      pure (line "########Start phi remove########" ++ text, s)
    else pure ("", s)
  let _ ← finish f g s.blocks
  return dominance ++ Dominance.frontierLine frontier ++ siteLine vars ++ phis ++ links ++ removals

end Versions

end Trace

end BrilKit
