import BrilKit.Loop.Hoist
import BrilKit.Trace.Dominance

/-!
# Traces of loops

What happens while loops are found and invariant operations are moved out of them.
-/

namespace BrilKit

namespace Trace

namespace Loop

open BrilKit.Loop

def named (g : FlowGraph) (k : Nat) : String :=
  toString k ++ "(" ++ label (g[k]?.bind Node.label) ++ ")"

def section_ (s : String) : String := line ("############" ++ s ++ "############")

def edgeLines (g : FlowGraph) (node : Node) (out : List Nat) (k : Nat) : String :=
  Dominance.blockTitle g k ++ line ("succ: " ++ natList node.succ)
    ++ line ("out: " ++ listText [natSet out]) ++ rule

def backEdgeLine (g : FlowGraph) (edge : Nat × Nat) : String :=
  line ("Back edges: front:" ++ toString edge.1 ++ " ("
    ++ label (g[edge.1]?.bind Node.label) ++ ") back:" ++ named g edge.2)

def loopText (l : BrilKit.Loop) : String :=
  tableText [(Quoted.quote "preheader", toString l.preheader),
    (Quoted.quote "nodes", natList l.nodes), (Quoted.quote "header", toString l.header),
    (Quoted.quote "exit", toString l.exit)]

def foundLines (g : FlowGraph) (l : BrilKit.Loop) : String :=
  line ("Header: " ++ named g l.header) ++ line ("Exit: " ++ named g l.exit)
    ++ line ("Loop: " ++ loopText l)

/-- The lines of a round over the operations of a loop, with the invariant variables behind it. -/
def roundLines (assigned : List String) (is : List Instr) (known : List String) :
    String × List String :=
  is.foldl (fun (text, known) i =>
    match addsInvariant assigned known i with
    | some d => (text ++ line ("Add loop invariant: " ++ d), known ++ [d])
    | none => (text, known)) ("", known)

def roundsLines (assigned : List String) (is : List Instr) : Nat → List String → String
  | 0, _ => ""
  | n + 1, known =>
    let (text, next) := roundLines assigned is known
    if next.length = known.length then text else text ++ roundsLines assigned is n next

def invariantLines (l : BrilKit.Loop) (blocks : List Block) : String :=
  let is := l.operations blocks
  let assigned := is.filterMap Instr.dest
  line ("args_set: " ++ nameSet (Members.ofList (is.flatMap Instr.uses)))
    ++ line ("dest_set: " ++ nameSet (Members.ofList assigned))
    ++ roundsLines assigned is (assigned.length + 1) []
    ++ line ("Loop invariant: " ++ nameSet (l.invariants blocks))

def moveLines (g : FlowGraph) (outs : List (List Nat)) (l : BrilKit.Loop) (blocks : List Block)
    (known : List String) (k : Nat) : String :=
  if l.mayMove outs k then
    lines (((blocks.getD k []).filter (isHoisted known)).map fun i => "Hoist: " ++ instr i)
  else line ("Block " ++ named g k ++ " does not dominate the exit")

def hoistLines (g : FlowGraph) (outs : List (List Nat)) :
    List Block → List BrilKit.Loop → String
  | _, [] => ""
  | blocks, l :: ls =>
    title ("Loop " ++ loopText l) ++ invariantLines l blocks
      ++ String.join (l.nodes.map (moveLines g outs l blocks (l.invariants blocks)))
      ++ hoistLines g outs (hoist outs blocks l) ls

def hoisted (f : Func) : Outcome String := do
  let g ← f.labelledGraph .labelled false
  let (dominance, d) ← Dominance.settled g
  let edges ← backEdges g d.outs
  let loops ← edges.mapM (ofBackEdge g d.outs)
  return section_ "Compute Dominance" ++ dominance ++ section_ "Search Back edges"
    ++ String.join ((g.zip d.outs).zipIdx.map fun ((node, out), k) => edgeLines g node out k)
    ++ String.join (edges.map (backEdgeLine g)) ++ section_ "Find Loops"
    ++ String.join (loops.map (foundLines g)) ++ hoistLines g d.outs g.blocks loops

end Loop

end Trace

end BrilKit
