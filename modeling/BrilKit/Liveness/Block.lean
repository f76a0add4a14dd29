import BrilKit.Data.Members
import BrilKit.Program.Instr

/-!
# Liveness inside a block

Going backward through a block, an assignment ends the life of its variable and a read begins one.
An operation whose result is not live at that point can go.
-/

namespace BrilKit

namespace Liveness

def before (i : Instr) (live : List String) : List String :=
  let live :=
    match i.dest with
    | some d => live.filter fun x => x != d
    | none => live
  Members.addAll live i.uses

def blockStart (b : Block) (live : List String) : List String := b.foldr before live

def isDead (i : Instr) (live : List String) : Bool :=
  i.isOp && match i.dest with
    | some d => !live.contains d
    | none => false

/-- One step backward through a block: the instructions kept so far and the live variables. Items
that are not operations are kept and do not count as reads or assignments. -/
def pruneStep (i : Instr) (acc : Block × List String) : Block × List String :=
  let (kept, live) := acc
  if isDead i live then (kept, live)
  else if i.isOp then (i :: kept, before i live)
  else (i :: kept, live)

/-- A block without its dead operations, and the variables live at its start, by those live at its
end. -/
def pruneBlock (b : Block) (live : List String) : Block × List String :=
  b.foldr pruneStep ([], live)

end Liveness

end BrilKit
