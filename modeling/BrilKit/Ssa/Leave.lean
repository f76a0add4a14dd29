import BrilKit.Block.Named
import BrilKit.Program.Basic

/-!
# Conversion out of single-assignment form

Each phi becomes copies, one before the terminator of every block that it names.
-/

namespace BrilKit

namespace Ssa

def insertBeforeLast (b : Block) (i : Instr) : Block := b.dropLast ++ i :: b.getLast?.toList

def addCopy (dest : String) (type : Ty) (args : List String) (blocks : NamedBlocks)
    (source : String × Nat) : Outcome NamedBlocks := do
  let (label, k) := source
  let x ← itemAt args k
  let b ← blocks.fetch label
  let copy : Instr := { op := some "id", type := some type, args := some [x], dest := some dest }
  return blocks.put label (insertBeforeLast b copy)

def addCopies (blocks : NamedBlocks) (i : Instr) : Outcome NamedBlocks :=
  if i.hasOp "phi" then do
    let dest ← i.getDest
    let type ← i.getType
    let labels ← i.getLabels
    -- Operands are asked for only when there is a label.
    let args ← if labels.isEmpty then pure [] else i.getArgs
    labels.zipIdx.foldlM (addCopy dest type args) blocks
  else .ok blocks

def dissolve (blocks : NamedBlocks) (name : String) : Outcome NamedBlocks := do
  let b ← blocks.fetch name
  let blocks ← b.foldlM addCopies blocks
  let b ← blocks.fetch name
  return blocks.put name (b.filter fun i => !i.hasOp "phi")

def leaveBody (is : List Instr) : Outcome (List Instr) := do
  let blocks ← NamedBlocks.explicit is
  return (← blocks.keys.foldlM dissolve blocks).reassemble

def leave (f : Func) : Outcome Func := f.mapBodyM leaveBody

end Ssa

end BrilKit
