import BrilKit.DeadCode.Trivial

/-!
# Counted removal of dead assignments

The same two kinds of dead assignments, removed by passes that count what they did: the global
pass counts variables and rounds, the local one works on each block until it finds nothing more.
-/

namespace BrilKit

namespace DeadCode

def unreadVars (is : List Instr) : List String :=
  Members.without (Members.ofList (is.filterMap Instr.dest)) (is.flatMap Instr.uses)

/-- One global pass: the remaining instructions and the number of unread variables. -/
def sweepOnce (is : List Instr) : List Instr × Nat :=
  let unread := unreadVars is
  (is.filter fun i => !(i.dest.any unread.contains), unread.length)

/-- Global passes until one finds nothing, and how many found something. Each of those removes an
instruction. -/
def sweepWithin : Nat → List Instr → List Instr × Nat
  | 0, is => (is, 0)
  | n + 1, is =>
    let (js, found) := sweepOnce is
    if found = 0 then (js, 0)
    else
      let (ks, count) := sweepWithin n js
      (ks, count + 1)

/-- Global passes until one finds nothing, and how many found something. -/
def sweep (is : List Instr) : List Instr × Nat := sweepWithin (is.length + 1) is

/-- The first unread assignment of each variable, and the positions found dead so far. A position
can be found again by a later assignment. -/
structure Overwritten where
  unread : Table String Nat := .empty
  dead : List Nat := []

def Overwritten.take (o : Overwritten) (item : Instr × Nat) : Overwritten :=
  let (i, n) := item
  if i.isOp then
    let unread := i.uses.foldl Table.erase o.unread
    match i.dest with
    | none => { o with unread }
    | some d =>
      match unread.get? d with
      | some old => { unread, dead := o.dead ++ [old] }
      | none => { o with unread := unread.put d n }
  else o

/-- One local pass over a block: what remains, and how many overwritings were found. -/
def sweepBlockOnce (b : Block) : Block × Nat :=
  let dead := (b.zipIdx.foldl Overwritten.take {}).dead
  (withoutPositions b dead, dead.length)

/-- Local passes over a block until one finds nothing, and how many found something. Each of those
removes an instruction. -/
def sweepBlockWithin : Nat → Block → Block × Nat
  | 0, b => (b, 0)
  | n + 1, b =>
    let (c, found) := sweepBlockOnce b
    if found = 0 then (c, 0)
    else
      let (d, count) := sweepBlockWithin n c
      (d, count + 1)

/-- Local passes over a block until one finds nothing, and how many found something. -/
def sweepBlock (b : Block) : Block × Nat := sweepBlockWithin (b.length + 1) b

def sweepBlocks (is : List Instr) : List Instr × Nat :=
  let results := (Block.collect is).map sweepBlock
  (results.flatMap Prod.fst, results.foldl (fun n r => n + r.2) 0)

/-- Global and local passes until neither finds anything; the local ones run only when the global
ones have nothing to do. -/
def sweepAllWithin : Nat → List Instr → List Instr
  | 0, is => is
  | n + 1, is =>
    let (js, found) := sweep is
    if found ≠ 0 then sweepAllWithin n js
    else
      let (ks, found) := sweepBlocks js
      if found ≠ 0 then sweepAllWithin n ks else ks

def sweepAll (is : List Instr) : List Instr := sweepAllWithin (is.length + 1) is

end DeadCode

end BrilKit
