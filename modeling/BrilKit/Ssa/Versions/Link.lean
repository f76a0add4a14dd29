import BrilKit.Ssa.Versions.Number

/-!
# Linking uses to versions

The second half of the conversion: the versions in force flow along the edges of the graph. Uses are
renamed to them, and phis collect them as operands. Where the versions that come in differ, a phi is
in charge.
-/

namespace BrilKit

namespace Ssa

abbrev Versions := Table String String

def Versions.same (a b : Versions) : Bool := Table.sameBy (fun x y => x == y) a b

structure Linking where
  blocks : List Block
  /-- For each block the versions that came in over its edges; nothing before the first arrival. -/
  ins : List (List Versions)
  pending : List Nat
  pruning : Bool := false

def Linking.initial (blocks : List Block) : Linking where
  blocks
  ins := (blocks.map fun _ => []).set 0 [.empty]
  pending := [0]

/-- Add to a phi the version that came in over one edge, unless the edge's label is there. -/
def collect (g : FlowGraph) (ins : List Versions) (x : String) (phi : Instr) (edge : Nat × Nat) :
    Outcome Instr := do
  let (source, k) := edge
  match (← itemAt g source).label with
  | none => .error (.stopped "1")
  | some l =>
    let labels ← phi.getLabels
    if labels.contains l then return phi
    else
      match (← itemAt ins k).get? x with
      | none => return phi
      | some version =>
        return { phi with args := some (phi.uses ++ [version]), labels := some (labels ++ [l]) }

/-- Link an instruction: a phi collects operands, others use the versions in force. Then the result
is in force. -/
def linkInstr (g : FlowGraph) (pred : List Nat) (ins : List Versions) (force : Versions)
    (i : Instr) : Outcome (Versions × Instr) := do
  let i ←
    match i.args with
    | none => pure i
    | some xs =>
      if (← i.getOp) == "phi" then
        let x := variableOf (← i.getDest)
        pred.zipIdx.foldlM (collect g ins x) i
      else pure { i with args := some (xs.map fun x => force.getD x x) }
  match i.dest with
  | some d => return (force.put (variableOf d) d, i)
  | none => return (force, i)

def labelPosition (g : FlowGraph) (pred : List Nat) (l : String) : Nat :=
  pred.findIdx fun p => (g[p]?.bind Node.label) == some l

/-- Bring the operands of a phi up to date, from a position on: one whose edge brings no version
any more is dropped, and the operand behind a dropped one is passed over. -/
def refresh (g : FlowGraph) (pred : List Nat) (ins : List Versions) (x : String) :
    Nat → Nat → List String × List String → Outcome (List String × List String)
  | 0, _, s => .ok s
  | fuel + 1, k, (labels, args) =>
    match labels[k]? with
    | none => .ok (labels, args)
    | some l => do
      match (← itemAt ins (labelPosition g pred l)).get? x with
      | none =>
        Outcome.guard (decide (k < args.length)) .outOfRange
        refresh g pred ins x fuel (k + 1) (labels.eraseIdx k, args.eraseIdx k)
      | some version =>
        let _ ← itemAt args k
        refresh g pred ins x fuel (k + 1) (labels, args.set k version)

/-- The operand that can stand for a phi: the only one, or the other one of two when the phi itself
is one of them. -/
def replacement (dest : String) (args : List String) : Option String :=
  match args with
  | [a] => some a
  | [a, b] => if a = dest then some b else if b = dest then some a else none
  | _ => none

/-- Bring an instruction up to date; tells whether it is a phi that can go. -/
def pruneInstr (g : FlowGraph) (pred : List Nat) (ins : List Versions) (force : Versions)
    (i : Instr) : Outcome (Versions × Instr × Bool) := do
  let (i, gone) ←
    match i.args with
    | none => pure (i, false)
    | some xs =>
      if (← i.getOp) == "phi" then
        let dest ← i.getDest
        let labels ← i.getLabels
        let (labels, args) ←
          refresh g pred ins (variableOf dest) (labels.length + 1) 0 (labels, xs)
        let i := { i with labels := some labels, args := some args }
        match replacement dest args with
        | some a => pure ({ i with dest := some a }, true)
        | none => pure (i, false)
      else pure ({ i with args := some (xs.map fun x => force.getD (variableOf x) x) }, false)
  match i.dest with
  | some d => return (force.put (variableOf d) d, i, gone)
  | none => return (force, i, gone)

def linkBlock (g : FlowGraph) (pred : List Nat) (ins : List Versions) (pruning : Bool) :
    Versions → Block → Outcome (Versions × Block)
  | force, [] => .ok (force, [])
  | force, i :: is => do
    if pruning then
      let (force, i, gone) ← pruneInstr g pred ins force i
      let (force, is) ← linkBlock g pred ins pruning force is
      return (force, if gone then is else i :: is)
    else
      let (force, i) ← linkInstr g pred ins force i
      let (force, is) ← linkBlock g pred ins pruning force is
      return (force, i :: is)

/-- The versions in force at the start of a block: what the edges agree on or only some bring. -/
def inForce (ins : List Versions) : Versions := Merge.settledBy (fun x y => x == y) true ins

/-- Pass the versions at the end of a block on to a successor; it is visited if they are new. -/
def passVersions (g : FlowGraph) (k : Nat) (force : Versions) (s : Linking) (target : Nat) :
    Outcome Linking := do
  let node ← itemAt g target
  let tables ← itemAt s.ins target
  let tables := if tables.isEmpty then node.pred.map fun _ => .empty else tables
  let slot ← FlowGraph.slot node.pred k
  let old ← itemAt tables slot
  if old.same force then return { s with ins := s.ins.set target tables }
  else
    return { s with ins := s.ins.set target (tables.set slot force),
                    pending := Members.add s.pending target }

def visitBlock (g : FlowGraph) (s : Linking) : Outcome Linking :=
  match s.pending with
  | [] => .ok s
  | k :: rest => do
    let node ← itemAt g k
    let ins ← itemAt s.ins k
    let (force, b) ← linkBlock g node.pred ins s.pruning (inForce ins) (← itemAt s.blocks k)
    let s := { s with pending := rest, blocks := s.blocks.set k b }
    node.succ.foldlM (passVersions g k force) s

def linkBound (g : FlowGraph) : Nat :=
  let names := (g.body.filterMap Instr.dest).length
  (g.length + 1) * (g.edgeCount + 1) * (names + g.length + 2) + 16

def settleLinks (g : FlowGraph) (s : Linking) : Outcome Linking :=
  Iterate.run (fun s => s.pending.isEmpty) (visitBlock g) (linkBound g) s

def Linking.beginPruning (s : Linking) : Linking :=
  { s with pruning := true, pending := List.range s.blocks.length }

def link (style : Style) (g : FlowGraph) (blocks : List Block) : Outcome (List Block) := do
  let s ← settleLinks g (Linking.initial blocks)
  let s ← if style.prunes then settleLinks g s.beginPruning else pure s
  return s.blocks

end Ssa

end BrilKit
