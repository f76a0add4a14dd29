import BrilKit.Block.Split
import BrilKit.Data.Members

/-!
# Flow graphs over block numbers

The blocks of a body in order, each with a name: its label, or `b` and its number. Edges lead from
numbers to numbers.
-/

namespace BrilKit

/-- The blocks of a body with names and edges. -/
structure IndexGraph where
  names : List (Option String)
  blocks : List Block
  edges : List (List Nat)
  preds : List (List Nat)
deriving Repr, DecidableEq, Inhabited

namespace IndexGraph

def size (g : IndexGraph) : Nat := g.blocks.length

structure Draft where
  names : List (Option String) := []
  edges : List (List Nat) := []
  labels : Table (Option String) Nat := .empty
  waiting : Table String (List Nat) := .empty

def Draft.jump (d : Draft) (k : Nat) (label : String) : Draft :=
  match d.labels.get? (some label) with
  | some target => { d with edges := d.edges.modify k (· ++ [target]) }
  | none => { d with waiting := d.waiting.alter label fun ks => ks.getD [] ++ [k] }

def Draft.leave (d : Draft) (k : Nat) (b : Block) : Outcome Draft :=
  match b.getLast? with
  | none => .ok d
  | some i =>
    if i.hasOp "br" || i.hasOp "jmp" then do
      return (← i.getLabels).foldl (fun d l => d.jump k l) d
    else if i.isOp && !i.hasOp "ret" then .ok { d with edges := d.edges.set k [k + 1] }
    else .ok d

def Draft.take (d : Draft) (b : Block) : Outcome Draft :=
  let k := d.names.length
  let d := { d with edges := d.edges ++ [[]] }
  match b.head? with
  | some i =>
    if i.setsLabel then
      { d with names := d.names ++ [i.label], labels := d.labels.put i.label k }.leave k b
    else { d with names := d.names ++ [some ("b" ++ toString k)] }.leave k b
  | none => d.leave k b

def Draft.resolve (d : Draft) : Outcome (List (List Nat)) :=
  d.waiting.entries.foldlM (fun edges (label, ks) =>
    ks.foldlM (fun edges k => do
      let target ← Outcome.ofOption label (d.labels.get? (some label))
      return edges.modify k (· ++ [target])) edges) d.edges

def trimLast (n : Nat) (edges : List (List Nat)) : Outcome (List (List Nat)) :=
  match edges.getLast? with
  | none => .error .outOfRange
  | some es => .ok (if es.contains n then edges.set (edges.length - 1) [] else edges)

def reverse (edges : List (List Nat)) : List (List Nat) :=
  edges.zipIdx.foldl (fun preds (es, k) =>
    es.foldl (fun preds t => preds.modify t (· ++ [k])) preds) (edges.map fun _ => [])

def ofBody (is : List Instr) : Outcome IndexGraph := do
  let blocks := Block.split is
  let draft ← blocks.foldlM Draft.take {}
  let edges ← trimLast blocks.length (← draft.resolve)
  return { names := draft.names, blocks, edges, preds := reverse edges }

def nameText (g : IndexGraph) (k : Nat) : Outcome String := do
  match ← itemAt g.names k with
  | some n => return n
  | none => .error .noOperation

/-- The graph in the language of a graph drawing program; dots in names become underscores. -/
def dot (g : IndexGraph) : Outcome String := do
  let plain (n : String) : String := n.map fun c => if c = '.' then '_' else c
  let lines ← g.edges.zipIdx.mapM fun (es, k) => es.mapM fun t => do
    return plain (← g.nameText k) ++ " -> " ++ plain (← g.nameText t) ++ ";\n"
  return "digraph g \x7b\n" ++ String.join lines.flatten ++ "\x7d\n"

def listNames (g : IndexGraph) : String :=
  String.join (g.names.zipIdx.map fun (n, k) => toString k ++ " " ++ n.getD "None" ++ "\n")

end IndexGraph

end BrilKit
