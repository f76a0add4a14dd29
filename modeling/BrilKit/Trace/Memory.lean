import BrilKit.Memory.DeadStore
import BrilKit.Trace.Text

/-!
# Traces of memory

What happens while the places of pointers are computed and dead stores are removed.
-/

namespace BrilKit

namespace Trace

namespace Memory

open BrilKit.Memory

def blockTitle (g : FlowGraph) (k : Nat) : String :=
  title ("Block " ++ toString k ++ "(" ++ label (g[k]?.bind Node.label) ++ ")")

def placesText (t : PointsTo) : String :=
  tableText (t.entries.map fun (x, places) => (Quoted.quote x, nameSet places))

/-- The lines of the instructions of a block that concern pointers, with the table behind. -/
def aliasLines (block : Nat) : PointsTo → List (Instr × Nat) → Outcome (String × PointsTo)
  | t, [] => .ok ("", t)
  | t, (i, position) :: is => do
    match ← aliasStep block t i position with
    | none => aliasLines block t is
    | some t =>
      let here := line (toString position ++ "(" ++ label i.op ++ "): " ++ placesText t)
      let (text, t) ← aliasLines block t is
      return (here ++ text, t)

def aliasVisited (g : FlowGraph) (step : AliasState × AliasState) : Outcome String := do
  let (s, next) := step
  match s.pending with
  | [] => return ""
  | k :: _ =>
    let node ← itemAt g k
    let start := joinAll (← itemAt s.ins k)
    let (text, t) ← aliasLines k start node.block.zipIdx
    let updated := if t.same (← itemAt s.outs k) then "" else line "OUT updated"
    return blockTitle g k ++ line ("IN: " ++ placesText start) ++ text
      ++ line ("OUT: " ++ placesText t) ++ updated ++ line ("worklist: " ++ natList next.pending)

def aliasSettled (f : Func) (g : FlowGraph) : Outcome (String × AliasState) := do
  let start := AliasState.initial g (← paramPlaces f)
  let states ←
    Iterate.trail (fun s => s.pending.isEmpty) (visitAlias g) (aliasBound g) start
  let texts ← (Iterate.pairs states).mapM (aliasVisited g)
  return (String.join texts, states.getLast?.getD start)

/-- What happens on the way backward through a block: the lines, the pointers stored to, and the
positions of dead stores, the last one first. -/
structure Backward where
  text : String := ""
  stored : List String
  dead : List Nat := []

def storePassed (places : PointsTo) (b : Backward) (item : Instr × Nat) : Outcome Backward := do
  let (i, position) := item
  let (stored, dead) ← storeStep places b.stored i
  let removed := b.stored.filter fun p => !stored.contains p
  let reason := label ((i.args.getD []).head?)
  return { text := b.text ++ (if dead then line ("Instr removed " ++ instr i) else "")
             ++ lines (removed.map fun p => "Remove " ++ p ++ " due to " ++ reason)
           stored
           dead := if dead then b.dead ++ [position] else b.dead }

def storeVisited (g : FlowGraph) (places : PointsTo) (step : StoreState × StoreState) :
    Outcome String := do
  let (s, next) := step
  match s.pending with
  | [] => return ""
  | k :: _ =>
    let stored := Merge.meetSets false (← itemAt s.outs k)
    let block ← itemAt s.blocks k
    let way ← block.zipIdx.reverse.foldlM (storePassed places) { stored }
    let removal := if s.removing then line ("del_list: " ++ natList way.dead) else ""
    let updated :=
      if Members.same way.stored (← itemAt s.ins k) then "" else line "IN updated"
    return blockTitle g k ++ line ("OUT: " ++ nameSet stored) ++ way.text
      ++ line ("IN: " ++ nameSet way.stored) ++ removal ++ updated
      ++ line ("worklist: " ++ natList next.pending)

def storeSettled (g : FlowGraph) (places : PointsTo) (s : StoreState) :
    Outcome (String × StoreState) := do
  let states ←
    Iterate.trail (fun s => s.pending.isEmpty) (visitStores g places) (storeBound g) s
  let texts ← (Iterate.pairs states).mapM (storeVisited g places)
  return (String.join texts, states.getLast?.getD s)

def stores (f : Func) : Outcome String := do
  let g ← f.labelledGraph .looping false
  let (flow, s) ← aliasSettled f g
  let places ← combine s.outs
  let (first, s) ← storeSettled g places (.initial g)
  let (second, _) ← storeSettled g places s.beginRemoving
  return flow ++ line ("Final map: " ++ placesText places) ++ first
    ++ line "*******Eliminate pass*******" ++ second

end Memory

end Trace

end BrilKit
