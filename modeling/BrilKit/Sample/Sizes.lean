import BrilKit.IndexGraph.Reaching
import BrilKit.Listing.Dot
import BrilKit.Pass
import BrilKit.Sample.Programs

/-!
# What passes and analyses make of the sample programs

Each measurement runs passes or analyses on sample programs of a given size and gives the sizes of
their results.
-/

namespace BrilKit

namespace Sample

def sizeOf (f : Func) : Nat := (f.instrs.getD []).length

def sizeAfter (p : Pass) (f : Func) : Outcome Nat := do return sizeOf (← p.onFunc f)

def deadCodeSizes (n : Nat) : Outcome (List Nat) :=
  [Pass.dropUnreadAll, .dropUnread, .dropKilled, .clean].mapM fun p =>
    sizeAfter p (arithmetic n "main")

/-- The number of items with a type after inference on a chain of arithmetic and one of copies. -/
def typedItems (n : Nat) : Outcome Nat := do
  let fs := [untyped (arithmetic n "main"), untyped (copies n "copies")]
  let p ← Typing.infer { functions := some fs }
  return (((← p.funcs).flatMap fun f => f.instrs.getD []).filter fun i => i.type.isSome).length

/-- What an analysis finds on a function: the number of blocks, and the fact at the end of the block
where the analysis starts. -/
def flowFacts {α : Type} (a : Analysis α) (display : α → String) (f : Func) :
    Outcome (Nat × String) := do
  let blocks ← (NamedBlocks.ofBody (← f.body)).addTerminators
  let (_, behind) ← a.solve blocks
  let start ← a.firstBlock blocks
  return (behind.size, display (← behind.fetch start))

def flowSizes (n : Nat) : Outcome (List (String × Nat × String)) := do
  let f := diamonds n true "main"
  return [("defined", ← flowFacts .defined showNames f), ("live", ← flowFacts .live showNames f),
    ("cprop", ← flowFacts .constants showTable f)]

def meetingConstants : List (String × Datum) :=
  (Analysis.mergeConsts
    [ .ofList [("a", .int 1), ("b", .int 2), ("c", Analysis.unknown)],
      .ofList [("a", .int 1), ("b", .int 3)] ]).entries

def shownFacts : List String := [showNames [], showTable .empty, Datum.text (.int 42)]

/-- A name that has to be quoted in a drawing, and a block name beside two that are taken. -/
def shownNames : List String := [Listing.quoteName "a.b", freshName "b" ["b1", "b2"]]

structure GraphSizes where
  blocks : Nat
  ordered : Nat
  loops : Nat
  drawing : Nat
  dominated : Nat
deriving Repr, DecidableEq

def graphSizes (f : Func) : Outcome GraphSizes := do
  let g ← IndexGraph.ofBody (← f.body)
  return { blocks := g.size, ordered := (← g.reversePostorder).length,
           loops := (← g.loops).length, drawing := (← g.dot).length,
           dominated := (← g.dominance).doms.length }

/-- The sizes of the graphs of a framed row of branches and of a loop, the size of both with names
from stacks, and the number of blocks of the first for which definitions are then tracked. -/
def stackedSizes (n : Nat) : Outcome (List GraphSizes × Nat × Nat) := do
  let row := framed (diamonds n true "main")
  let loop := counting 3 false "loop"
  let graphs ← [row, loop].mapM graphSizes
  let row ← Pass.enterStacked.onFunc row
  let loop ← Pass.enterStacked.onFunc loop
  let reached ← Reaching.compute row
  return (graphs, reached.outs.length, sizeOf row + sizeOf loop)

/-- Whether a row of branches and a loop are in single-assignment form when it has been entered and
when it has been left again, and their sizes then. -/
def roundTrip (n : Nat) : Outcome (Bool × Bool × List Nat) := do
  let fs ← [diamonds n true "main", counting 5 false "loop"].mapM Pass.enterSsa.onFunc
  let single ← Ssa.allSingle fs
  let fs ← fs.mapM Pass.leaveSsa.onFunc
  return (single, ← Ssa.allSingle fs, fs.map sizeOf)

/-- The numbers of blocks with dominators and with frontiers, and the number of items of a function
put together from its blocks. -/
def dominanceSizes (f : Func) : Outcome (List Nat) := do
  let blocks ← NamedBlocks.explicit (← f.body)
  let succ ← blocks.successors
  let dom ← Dominators.compute succ (← blocks.entry)
  return [dom.size, (← Dominators.frontiers dom succ).size, blocks.reassemble.length]

def dominance (n : Nat) : Outcome (List Nat) := do
  return (← dominanceSizes (diamonds n true "main"))
    ++ (← dominanceSizes (returning (counting 4 false "loop")))

def lacksExits : Bool :=
  match NamedBlocks.exits [plain "nop"] with
  | .ok _ => false
  | .error _ => true

end Sample

end BrilKit
