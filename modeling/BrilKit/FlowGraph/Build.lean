import BrilKit.Block.Split
import BrilKit.Program.Basic

/-!
# Flow graphs of numbered blocks

A flow graph is built in one pass over a body. An edge is recorded when its second end is met: a
jump backward when the jump is read, a jump forward when the label is read. Builders differ in two
points, which `Style` tells.
-/

namespace BrilKit

/-- A block with the numbers of the blocks before and behind it. -/
structure Node where
  block : Block
  pred : List Nat := []
  succ : List Nat := []
deriving Repr, DecidableEq

def Node.label (n : Node) : Option String := n.block.head?.bind Instr.label

abbrev FlowGraph := List Node

namespace FlowGraph

structure Style where
  /-- Leave out operations that follow a terminator without a label between. -/
  dropsDead : Bool
  selfEdges : Bool
deriving Repr, DecidableEq

def Style.full : Style := ⟨false, false⟩

def Style.labelled : Style := ⟨true, false⟩

def Style.looping : Style := ⟨true, true⟩

/-- The label under which jumps find an item; the empty one for a label without a name. -/
def labelKey (i : Instr) : Outcome (Option String) :=
  match i.label with
  | some l => .ok (some l)
  | none => if (i.extra.lookup "label").isSome then .ok none else .error (.missing "label")

structure Builder where
  done : FlowGraph := []
  current : Node := { block := [] }
  jumps : Table (Option String) (List Nat) := .empty
  placed : Table (Option String) (List Nat) := .empty

namespace Builder

def index (b : Builder) : Nat := b.done.length

def note (t : Table (Option String) (List Nat)) (k : Option String) (n : Nat) :
    Table (Option String) (List Nat) :=
  t.alter k fun ns => ns.getD [] ++ [n]

def modifyDone (b : Builder) (k : Nat) (f : Node → Node) : Outcome Builder :=
  match b.done[k]? with
  | some n => .ok { b with done := b.done.set k (f n) }
  | none => .error .outOfRange

def close (b : Builder) (next : Node) : Builder :=
  { b with done := b.done ++ [b.current], current := next }

def linkBack (style : Style) (b : Builder) (target : Nat) : Outcome Builder :=
  let k := b.index
  let b := { b with current := { b.current with succ := b.current.succ ++ [target] } }
  if style.selfEdges && target == k then
    .ok { b with current := { b.current with pred := b.current.pred ++ [k] } }
  else b.modifyDone target fun n => { n with pred := n.pred ++ [k] }

def jump (style : Style) (b : Builder) (label : String) : Outcome Builder := do
  let b := { b with jumps := note b.jumps (some label) b.index }
  (b.placed.getD (some label) []).foldlM (linkBack style) b

def linkForward (b : Builder) (source : Nat) : Outcome Builder :=
  let k := b.index
  let b := { b with current := { b.current with pred := b.current.pred ++ [source] } }
  b.modifyDone source fun n => { n with succ := n.succ ++ [k] }

def push (b : Builder) (i : Instr) : Builder :=
  { b with current := { b.current with block := b.current.block ++ [i] } }

def takeOp (style : Style) (b : Builder) (i : Instr) : Outcome Builder :=
  if style.dropsDead && b.current.block.isEmpty then .ok b
  else if i.isTerminator then do
    let b ← if i.hasOp "ret" then pure b else (← i.getLabels).foldlM (jump style) b
    return (b.push i).close { block := [] }
  else .ok (b.push i)

/-- Take in a label: control falls through to it from the block being read. -/
def takeLabel (b : Builder) (i : Instr) : Outcome Builder := do
  let k := b.index
  let b :=
    if b.current.block.isEmpty then b.push i
    else
      let b := { b with current := { b.current with succ := b.current.succ ++ [k + 1] } }
      b.close { block := [i], pred := [k] }
  let key ← labelKey i
  let b := { b with placed := note b.placed key b.index }
  (b.jumps.getD key []).foldlM linkForward b

def take (style : Style) (b : Builder) (i : Instr) : Outcome Builder :=
  if i.isOp then b.takeOp style i else b.takeLabel i

def graph (b : Builder) : FlowGraph :=
  if b.current.block.isEmpty then b.done else b.done ++ [b.current]

end Builder

def ofBody (style : Style) (is : List Instr) : Outcome FlowGraph := do
  return (← is.foldlM (Builder.take style) {}).graph

def body (g : FlowGraph) : List Instr := g.flatMap Node.block

def blocks (g : FlowGraph) : List Block := g.map Node.block

def edgeCount (g : FlowGraph) : Nat := g.foldl (fun n node => n + node.succ.length) 0

def slot (neighbours : List Nat) (k : Nat) : Outcome Nat :=
  match neighbours.idxOf? k with
  | some i => .ok i
  | none => .error .notListed

end FlowGraph

namespace Func

def selfCopy (p : Param) : Outcome Instr := do
  let n ← p.getName
  let t ← p.getType
  return { op := some "id", args := some [n], dest := some n, type := some t }

/-- The body with a label in front. With `copies`, a function with a parameter list also gets a
block that copies every parameter to itself, the last one first. -/
def labelledBody (copies : Bool) (f : Func) : Outcome (List Instr) := do
  let is ← f.body
  let first ← itemAt is 0
  let is := if first.isOp then .labelled "entry" :: is else is
  if copies then
    match ← f.paramList? with
    | some ps => return .labelled "dummy_entry" :: (← ps.mapM selfCopy).reverse ++ is
    | none => return is
  else return is

def labelledGraph (style : FlowGraph.Style) (copies : Bool) (f : Func) : Outcome FlowGraph := do
  FlowGraph.ofBody style (← f.labelledBody copies)

end Func

end BrilKit
