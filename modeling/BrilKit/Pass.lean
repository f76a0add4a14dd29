import BrilKit.Constants.Propagate
import BrilKit.DeadCode.Sweep
import BrilKit.Liveness.Combined
import BrilKit.Loop.Hoist
import BrilKit.Memory.DeadStore
import BrilKit.Ssa.Enter
import BrilKit.Ssa.Leave
import BrilKit.Ssa.Stacked.Enter
import BrilKit.Ssa.Stacked.Leave
import BrilKit.Ssa.Versions.Convert
import BrilKit.Ssa.Versions.Renumber
import BrilKit.Typing.Check
import BrilKit.ValueNumbering.Local
import BrilKit.ValueNumbering.Tracked
import BrilKit.ValueNumbering.Versioned

/-!
# Passes over programs

Every transformation of the library as a `Pass`, which turns a program into a program. Passes can
be run one after the other.
-/

namespace BrilKit

inductive Pass where
  /-- Write the types of results, and possibly check them against those that were written. -/
  | inferTypes (check : Bool)
  /-- Value numbering of blocks, by the names of variables. -/
  | numberLocal (options : ValueNumbering.Options)
  /-- Value numbering of blocks that folds constants and follows assignments. -/
  | numberTracked
  /-- Value numbering of blocks of a program in which each name is assigned once. -/
  | numberVersioned (scope : ValueNumbering.Scope) (style : FlowGraph.Style)
  /-- Drop assignments to variables that are never read, once. -/
  | dropUnread
  /-- The same until there are none. -/
  | dropUnreadAll
  /-- Drop assignments that the same block overwrites before a use. -/
  | dropKilled
  /-- Both, until neither changes anything. -/
  | clean
  | dropNops
  | sweepOnce
  /-- The same until there are none. -/
  | sweep
  | sweepBlocks
  /-- Both sweeps, until neither changes anything. -/
  | sweepAll
  | propagateConstants
  /-- Drop operations with dead results; liveness flows from the exits. -/
  | pruneFromExits
  /-- Drop operations with dead results while liveness is recomputed. -/
  | prune (style : FlowGraph.Style)
  | enterSsa
  | leaveSsa
  | enterStacked
  /-- Replace the phis at the starts of labelled blocks by copies. -/
  | leaveStacked
  | version (style : Ssa.Style)
  /-- Number versions in the order in which they are assigned. -/
  | renumber
  | dropVersions
  | hoist
  | dropDeadStores

namespace Pass

def isKept (i : Instr) : Bool := !i.hasOp "nop"

/-- What a pass does to a function; passes over whole programs leave it as it is. -/
def onFunc : Pass → Func → Outcome Func
  | .inferTypes _ => .ok
  | .numberLocal o => Func.mapBodyM (ValueNumbering.body o)
  | .numberTracked => Func.mapBodyM ValueNumbering.Tracked.body
  | .numberVersioned scope style => ValueNumbering.Versioned.func scope style
  | .dropUnread => Func.mapBody DeadCode.dropUnread
  | .dropUnreadAll => Func.mapBody DeadCode.dropUnreadAll
  | .dropKilled => Func.mapBody DeadCode.dropKilled
  | .clean => Func.mapBody DeadCode.clean
  | .dropNops => Func.mapBody (List.filter isKept)
  | .sweepOnce => Func.mapBody fun is => (DeadCode.sweepOnce is).1
  | .sweep => Func.mapBody fun is => (DeadCode.sweep is).1
  | .sweepBlocks => Func.mapBody fun is => (DeadCode.sweepBlocks is).1
  | .sweepAll => Func.mapBody DeadCode.sweepAll
  | .propagateConstants => Func.mapBodyM Constants.body
  | .pruneFromExits => Func.mapBodyM Liveness.pruneBody
  | .prune style => Liveness.pruneFunc style
  | .enterSsa => Ssa.enter
  | .leaveSsa => Ssa.leave
  | .enterStacked => Ssa.Stacked.enter
  | .leaveStacked => Ssa.Stacked.leave
  | .version style => Ssa.convert style
  | .renumber => fun f => .ok (Ssa.renumber f)
  | .dropVersions => Ssa.dropVersions
  | .hoist => Loop.hoistFunc
  | .dropDeadStores => Memory.removeDeadStores

def run (pass : Pass) (p : Program) : Outcome Program :=
  match pass with
  | .inferTypes check => do
    let typed ← Typing.infer p
    if check then Typing.check p typed
    return typed
  | pass => p.mapFuncs pass.onFunc

def runAll (passes : List Pass) (p : Program) : Outcome Program :=
  passes.foldlM (fun p pass => pass.run p) p

def reports : Pass → Bool
  | .dropUnread | .dropUnreadAll | .dropKilled | .clean | .sweepOnce | .sweep | .sweepBlocks => true
  | _ => false

/-- What a pass tells about each function: whether it changed, or how much was dropped. -/
def findings (pass : Pass) (p : Program) : Outcome (List Datum) := do
  let shorter (t : List Instr → List Instr) (is : List Instr) : Datum :=
    .bool ((t is).length != is.length)
  let finding (is : List Instr) : Datum :=
    match pass with
    | .dropUnread => shorter DeadCode.dropUnread is
    | .dropKilled => shorter DeadCode.dropKilled is
    | .sweepOnce => .int (DeadCode.sweepOnce is).2
    | .sweep => .int (DeadCode.sweep is).2
    | .sweepBlocks => .int (DeadCode.sweepBlocks is).2
    | _ => .null
  (← p.funcs).mapM fun f => do return finding (← f.body)

end Pass

end BrilKit
