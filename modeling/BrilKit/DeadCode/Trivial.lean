import BrilKit.Block.Split
import BrilKit.Data.Members

/-!
# Removal of assignments without effect

Two passes over a body: one removes the assignments to variables that no instruction reads, the
other removes, inside each block, an assignment that is overwritten before it is read.
-/

namespace BrilKit

namespace DeadCode

def isUnread (read : List String) (i : Instr) : Bool :=
  match i.dest with
  | some d => !read.contains d
  | none => false

/-- The instructions of a body without the assignments to variables that none of them reads. -/
def dropUnread (is : List Instr) : List Instr :=
  let read := is.flatMap Instr.uses
  is.filter fun i => !isUnread read i

/-- `dropUnread` until nothing changes, given a bound on the number of instructions. -/
def dropUnreadWithin : Nat → List Instr → List Instr
  | 0, is => is
  | n + 1, is =>
    let js := dropUnread is
    if js.length = is.length then js else dropUnreadWithin n js

/-- Repeat `dropUnread` until nothing changes. -/
def dropUnreadAll (is : List Instr) : List Instr := dropUnreadWithin is.length is

/-- The positions of the latest assignments that have not been read, and the positions of those
that were overwritten. -/
structure Killed where
  pending : Table String Nat := .empty
  dropped : List Nat := []

def Killed.take (k : Killed) (item : Instr × Nat) : Killed :=
  let (i, n) := item
  let pending := i.uses.foldl Table.erase k.pending
  match i.dest with
  | none => { k with pending }
  | some d =>
    match pending.get? d with
    | some old => { pending := pending.put d n, dropped := old :: k.dropped }
    | none => { k with pending := pending.put d n }

def withoutPositions {α : Type} (xs : List α) (dropped : List Nat) : List α :=
  (xs.zipIdx.filter fun x => !dropped.contains x.2).map Prod.fst

def dropKilledBlock (b : Block) : Block :=
  withoutPositions b (b.zipIdx.foldl Killed.take {}).dropped

/-- A body without the assignments that are overwritten in their block before they are read. -/
def dropKilled (is : List Instr) : List Instr := (Block.split is).flatMap dropKilledBlock

/-- Both passes until neither changes anything, given a bound on the number of instructions. The
second runs only when the first has nothing to do. -/
def cleanWithin : Nat → List Instr → List Instr
  | 0, is => is
  | n + 1, is =>
    let js := dropUnread is
    if js.length ≠ is.length then cleanWithin n js
    else
      let ks := dropKilled js
      if ks.length ≠ js.length then cleanWithin n ks else ks

def clean (is : List Instr) : List Instr := cleanWithin (is.length + 1) is

end DeadCode

end BrilKit
