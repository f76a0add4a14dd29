import BrilKit.IndexGraph.Build
import BrilKit.Program.Basic

/-!
# Replacing phis by copies

The phis at the start of a block become copies at the ends of the blocks that they name, in front
of the terminators there. Every block must have a label.
-/

namespace BrilKit

namespace Ssa

namespace Stacked

def openBlock (b : Block) : Block × Option Instr :=
  match b.getLast? with
  | some i => if i.isTerminator then (b.dropLast, some i) else (b, none)
  | none => (b, none)

def labelIndex (blocks : List Block) : Outcome (Table String Nat) :=
  blocks.zipIdx.foldlM (fun (t : Table String Nat) (b, k) => do
    let i ← itemAt b 0
    let _ ← Outcome.guard i.setsLabel (.missing "label")
    return match i.label with
      | some l => t.put l k
      | none => t) .empty

def leadingPhis (b : Block) : List Instr := (b.drop 1).takeWhile fun i => i.hasOp "phi"

def addCopies (index : Table String Nat) (blocks : List Block) (phi : Instr) :
    Outcome (List Block) := do
  let args ← phi.getArgs
  args.zipIdx.foldlM (fun blocks (x, k) => do
    let dest ← phi.getDest
    let label ← itemAt (← phi.getLabels) k
    let target ← index.fetch label
    let copy : Instr := { op := some "id", dest := some dest, args := some [x] }
    return blocks.modify target (· ++ [copy])) blocks

def leave (f : Func) : Outcome Func := do
  let g ← IndexGraph.ofBody (← f.body)
  let index ← labelIndex g.blocks
  let opened := g.blocks.map openBlock
  let bodies ← (opened.flatMap fun b => leadingPhis b.1).foldlM (addCopies index)
    (opened.map Prod.fst)
  let closed := (bodies.zip opened).map fun (b, o) =>
    (b.filter fun i => !i.hasOp "phi") ++ o.2.toList
  return f.withBody closed.flatten

end Stacked

end Ssa

end BrilKit
