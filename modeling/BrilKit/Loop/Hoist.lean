import BrilKit.Loop.Natural

/-!
# Moving invariant code out of loops

A variable is invariant in a loop when an operation of the loop computes it from operands that are
not assigned in the loop or are invariant themselves.
-/

namespace BrilKit

namespace Loop

def operations (l : Loop) (blocks : List Block) : List Instr :=
  l.nodes.flatMap fun k => (blocks.getD k []).filter Instr.isOp

def addsInvariant (assigned known : List String) (i : Instr) : Option String :=
  match i.args, i.dest with
  | some xs, some d =>
    if (xs.all fun x => !assigned.contains x || known.contains x) && !known.contains d then some d
    else none
  | _, _ => none

def invariantRound (assigned known : List String) (is : List Instr) : List String :=
  is.foldl (fun known i => known ++ (addsInvariant assigned known i).toList) known

def invariantsWithin (assigned : List String) (is : List Instr) : Nat → List String → List String
  | 0, known => known
  | n + 1, known =>
    let next := invariantRound assigned known is
    if next.length = known.length then next else invariantsWithin assigned is n next

def invariants (l : Loop) (blocks : List Block) : List String :=
  let is := l.operations blocks
  let assigned := is.filterMap Instr.dest
  invariantsWithin assigned is (assigned.length + 1) []

def isHoisted (known : List String) (i : Instr) : Bool := i.isOp && i.dest.any known.contains

/-- Whether the operations of a block may move: the block dominates the exit. -/
def mayMove (l : Loop) (outs : List (List Nat)) (k : Nat) : Bool :=
  (outs.getD l.exit []).contains k

def hoist (outs : List (List Nat)) (blocks : List Block) (l : Loop) : List Block :=
  let known := l.invariants blocks
  let sources := l.nodes.filter (l.mayMove outs)
  let moved := sources.flatMap fun k => (blocks.getD k []).filter (isHoisted known)
  let blocks := sources.foldl (fun bs k =>
    bs.set k ((bs.getD k []).filter fun i => !isHoisted known i)) blocks
  blocks.set l.preheader (blocks.getD l.preheader [] ++ moved)

def hoistFunc (f : Func) : Outcome Func := do
  let g ← f.labelledGraph .labelled false
  let (loops, outs) ← findAll g
  return f.withBody (loops.foldl (hoist outs) g.blocks).flatten

end Loop

end BrilKit
