import BrilKit.FlowGraph.Build
import BrilKit.Text.Printer

/-!
# Listings of blocks

Two forms: the blocks of the first function under their labels, and the numbered blocks of all
functions, with or without their edges.
-/

namespace BrilKit

namespace Listing

def line (s : String) : String := s ++ "\n"

def labelledBlock (b : Block) : Outcome String := do
  let (title, is) :=
    match b with
    | i :: is =>
      match i.labelText with
      | some l => ("block \"" ++ l ++ "\":", is)
      | none => ("anonymous block:", b)
    | [] => ("anonymous block:", b)
  let lines ← is.mapM fun i => do return line ("  " ++ (← i.render))
  return line title ++ String.join lines

def firstFunction (p : Program) : Outcome String := do
  let f ← itemAt (← p.funcs) 0
  return String.join (← (Block.split (← f.body)).mapM labelledBlock)

def rule (s : String) : String := line ("-----" ++ s ++ "-----")

def item (i : Instr) : Outcome String := do
  if i.isOp then return line (← i.render)
  else return line ("." ++ (← Outcome.ofOption "label" i.labelText) ++ ":")

def numberedBlock (description : String) (b : Block) (k : Nat) : Outcome String := do
  return rule ("Block " ++ toString k) ++ description ++ String.join (← b.mapM item)

def plain (p : Program) : Outcome String := do
  let parts ← (← p.funcs).zipIdx.mapM fun (f, n) => do
    let blocks ← (Block.collect (← f.body)).zipIdx.mapM fun (b, k) => numberedBlock "" b k
    return rule ("Function " ++ toString n) ++ String.join blocks
  return String.join parts

def ofNats (ns : List Nat) : Datum := .list (ns.map fun (n : Nat) => .int n)

/-- What is known about a block before any analysis: its neighbours, and its label when labels
count. -/
def nodeFields (labels : Bool) (n : Node) : List (String × Datum) :=
  [("pred", ofNats n.pred), ("succ", ofNats n.succ), ("touch", .int 0), ("in", .list []),
    ("out", .list [])]
  ++ if labels then [("label", n.label.elim .null .str)] else []

def graph (labels : Bool) (g : FlowGraph) : Outcome String := do
  let blocks ← g.zipIdx.mapM fun (n, k) =>
    numberedBlock (line (Datum.record (nodeFields labels n)).text) n.block k
  return String.join blocks

/-- The numbered blocks of all functions with their edges; `labels` tells whether every block must
begin with a label. -/
def graphs (build : Func → Outcome FlowGraph) (labels : Bool) (p : Program) : Outcome String := do
  let parts ← (← p.funcs).mapM fun f => do
    let title := rule ("Function " ++ (← f.getName))
    return title ++ (← graph labels (← build f))
  return String.join parts

end Listing

end BrilKit
