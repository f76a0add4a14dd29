import BrilKit.IndexGraph.Build
import BrilKit.Program.Basic

/-!
# Reaching definitions

For a program in single-assignment form: at the start and the end of each block the variables that
are defined and the block that defines them. Where the form is violated a warning is given and the
latest definition counts.
-/

namespace BrilKit

namespace Reaching

abbrev Defs := Table String Datum

def mergeWarning (v : Datum) : String :=
  "warning: illegal redef of var `" ++ v.text ++ "` (multiple blocks). This function assumes SSA."

def redefWarning (x : String) : String :=
  "warning: illegal redef of var `" ++ x ++ "`.This function assumes SSA."

def merge (tables : List Defs) : Defs × List String :=
  tables.foldl (fun acc t => t.entries.foldl (fun (out, warnings) (x, v) =>
    let clash := match out.get? x with
      | some old => !v.equal old
      | none => false
    (out.put x v, if clash then warnings ++ [mergeWarning v] else warnings)) acc) (.empty, [])

def transfer (start : Defs) (b : Block) (k : Nat) : Defs × List String :=
  b.foldl (fun (out, warnings) i =>
    match i.dest with
    | none => (out, warnings)
    | some d =>
      let clash := match out.get? d with
        | some old => !old.equal (.int k)
        | none => false
      (out.put d (.int k), if clash then warnings ++ [redefWarning d] else warnings))
    (start, [])

structure State where
  ins : List Defs
  outs : List Defs
  pending : List Nat
  warnings : List String := []

/-- Visit the next block; if its end changes, its successors are visited again. -/
def step (g : IndexGraph) (s : State) : State :=
  match s.pending with
  | [] => s
  | k :: rest =>
    let (start, w) := merge ((g.preds.getD k []).map fun p => s.outs.getD p .empty)
    let (out, w') := transfer start (g.blocks.getD k []) k
    let same := Table.sameBy Datum.same out (s.outs.getD k .empty)
    { ins := s.ins.set k start
      outs := s.outs.set k out
      pending := if same then rest else rest ++ g.edges.getD k []
      warnings := s.warnings ++ w ++ w' }

def run (g : IndexGraph) : Nat → State → Outcome State
  | 0, _ => .error .unsettled
  | fuel + 1, s => if s.pending.isEmpty then .ok s else run g fuel (step g s)

def bound (g : IndexGraph) : Nat :=
  let names := (g.blocks.flatMap fun b => b.filterMap Instr.dest).length
  (g.size + 1) * (g.size + 1) * (g.edges.foldl (fun n e => n + e.length) 0 + 1) * (names + 2)

def compute (f : Func) : Outcome State := do
  let g ← IndexGraph.ofBody (← f.body)
  let _ ← (← f.paramList).mapM Param.getName
  let none_ := g.blocks.map fun _ => Table.empty
  run g (bound g) { ins := none_, outs := none_, pending := List.range g.size }

end Reaching

end BrilKit
