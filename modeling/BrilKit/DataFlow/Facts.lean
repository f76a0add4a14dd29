import BrilKit.DataFlow.Solver
import BrilKit.Program.Basic

/-!
# Three analyses

Which variables have been assigned, which are live, and which hold a known constant. Sets of
names are compared by their members.
-/

namespace BrilKit

namespace Block

def written (b : Block) : List String := Members.ofList (b.filterMap Instr.dest)

/-- The state of `readFirst`: the variables assigned so far, and those read before. -/
structure Reads where
  assigned : List String := []
  found : List String := []

def Reads.take (r : Reads) (i : Instr) : Reads where
  found := Members.addAll r.found (Members.without i.uses r.assigned)
  assigned :=
    match i.dest with
    | some d => Members.add r.assigned d
    | none => r.assigned

def readFirst (b : Block) : List String := (b.foldl Reads.take {}).found

end Block

namespace Analysis

def defined : Analysis (List String) where
  forward := true
  init := []
  merge := Members.unionAll
  transfer := fun b s => .ok (Members.addAll s (Block.written b))
  same := Members.same

def live : Analysis (List String) where
  forward := false
  init := []
  merge := Members.unionAll
  transfer := fun b s =>
    .ok (Members.addAll (Block.readFirst b) (Members.without s (Block.written b)))
  same := Members.same

def unknown : Datum := .str "?"

def constStep (known : Table String Datum) (i : Instr) : Outcome (Table String Datum) :=
  match i.dest with
  | none => .ok known
  | some d => do
    let op ← i.getOp
    if op == "const" then return known.put d (← i.getValue)
    else return known.put d unknown

/-- Merge what is known of one variable into a table: two different values make it unknown. -/
def mergeEntry (out : Table String Datum) (entry : String × Datum) : Table String Datum :=
  let (x, v) := entry
  if v.equal unknown then out.put x unknown
  else
    match out.get? x with
    | some old => if old.equal v then out else out.put x unknown
    | none => out.put x v

def mergeConsts (tables : List (Table String Datum)) : Table String Datum :=
  tables.foldl (fun out t => t.entries.foldl mergeEntry out) .empty

def constants : Analysis (Table String Datum) where
  forward := true
  init := .empty
  merge := mergeConsts
  transfer := fun b known => b.foldlM constStep known
  same := Table.sameBy Datum.same

end Analysis

def showNames (s : List String) : String :=
  if s.isEmpty then "∅" else ", ".intercalate (sortNames s)

def showTable (t : Table String Datum) : String :=
  if t.isEmpty then "∅"
  else
    let es := t.entries.mergeSort fun a b => decide (a.1 ≤ b.1)
    ", ".intercalate (es.map fun (k, v) => k ++ ": " ++ v.text)

namespace Analysis

variable {α : Type}

def reportBody (a : Analysis α) (display : α → String) (is : List Instr) : Outcome String := do
  let blocks ← (NamedBlocks.ofBody is).addTerminators
  let (before, behind) ← a.solve blocks
  let parts ← blocks.keys.mapM fun n => do
    return n ++ ":\n  in:  " ++ display (← before.fetch n) ++ "\n  out: "
      ++ display (← behind.fetch n) ++ "\n"
  return String.join parts

def report (a : Analysis α) (display : α → String) (p : Program) : Outcome String := do
  let parts ← (← p.funcs).mapM fun f => do a.reportBody display (← f.body)
  return String.join parts

def ofProgram (a : Analysis α) (p : Program) :
    Outcome (List (Table String α × Table String α)) := do
  (← p.funcs).mapM fun f => do a.solve (← (NamedBlocks.ofBody (← f.body)).addTerminators)

end Analysis

end BrilKit
