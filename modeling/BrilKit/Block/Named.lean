import BrilKit.Block.Split
import BrilKit.Data.Members

/-!
# Blocks by name

The blocks of a function as a table: a block that starts with a label has that name and loses the
label, the others get names of their own. Terminators and an entry block without predecessors can
be added, which makes all control flow explicit.
-/

namespace BrilKit

/-- The first of the names `seed1`, `seed2`, … that is not taken. One of the first
`taken.length + 1` is free. -/
def freshName (seed : String) (taken : List String) : String :=
  let candidates := (List.range (taken.length + 1)).map fun i => seed ++ toString (i + 1)
  (candidates.find? fun n => !taken.contains n).getD seed

/-- The blocks of a function, each under its name, in the order of the function. -/
abbrev NamedBlocks := Table String Block

abbrev FlowMap := Table String (List String)

namespace NamedBlocks

def addBlock (t : NamedBlocks) (b : Block) : NamedBlocks :=
  match b with
  | [] => t
  | i :: is =>
    match i.label with
    | some l => t.put l is
    | none => t.put (freshName "b" t.keys) b

def ofBlocks (bs : List Block) : NamedBlocks := bs.foldl addBlock .empty

def ofBody (is : List Instr) : NamedBlocks := ofBlocks (Block.split is)

def implicitReturn : Instr := { op := some "ret", args := some [] }

def close (b : Block) (terminator : Instr) : Outcome Block :=
  match b.getLast? with
  | none => .ok [terminator]
  | some i => do
    let op ← i.getOp
    return if terminators.contains op then b else b ++ [terminator]

def closeAll : List (String × Block) → Outcome (List (String × Block))
  | [] => .ok []
  | [(n, b)] => do return [(n, ← close b implicitReturn)]
  | (n, b) :: (m, c) :: rest => do
    let b ← close b (.jump m)
    return (n, b) :: (← closeAll ((m, c) :: rest))

def addTerminators (t : NamedBlocks) : Outcome NamedBlocks := do return ⟨← closeAll t.entries⟩

def mentions (label : String) (i : Instr) : Bool := (i.labels.getD []).contains label

/-- The table with a first block that nothing jumps to: a new empty one if it is needed. -/
def addEntry (t : NamedBlocks) : Outcome NamedBlocks :=
  match t.entries with
  | [] => .error .exhausted
  | (first, _) :: _ =>
    if t.values.any fun b => b.any (mentions first) then
      .ok ⟨(freshName "entry" t.keys, []) :: t.entries⟩
    else .ok t

def targets (i : Instr) : Outcome (List String) := do
  let op ← i.getOp
  if op == "jmp" || op == "br" then i.getLabels
  else if op == "ret" then return []
  else .error (.notTerminator op)

def exits (b : Block) : Outcome (List String) :=
  match b.getLast? with
  | none => .error .outOfRange
  | some i => targets i

def successors (t : NamedBlocks) : Outcome FlowMap := do
  let es ← t.entries.mapM fun (n, b) => do return (n, ← exits b)
  return ⟨es⟩

def addPred (preds : FlowMap) (source target : String) : Outcome FlowMap :=
  match preds.get? target with
  | some ps => .ok (preds.put target (ps ++ [source]))
  | none => .error (.missing target)

def edges (t : NamedBlocks) : Outcome (FlowMap × FlowMap) :=
  let start : FlowMap := t.map fun _ => []
  t.entries.foldlM (fun (preds, succs) (n, b) => do
    let targets ← exits b
    let preds ← targets.foldlM (fun preds s => addPred preds n s) preds
    return (preds, succs.put n targets)) (start, start)

def reassemble (t : NamedBlocks) : List Instr :=
  t.entries.flatMap fun (n, b) => .labelled n :: b

/-- The blocks of a body with explicit control flow: an entry without predecessors, and a
terminator at the end of every block. -/
def explicit (is : List Instr) : Outcome NamedBlocks := do (← (ofBody is).addEntry).addTerminators

def entry (t : NamedBlocks) : Outcome String :=
  match t.keys with
  | n :: _ => .ok n
  | [] => .error .outOfRange

end NamedBlocks

end BrilKit
