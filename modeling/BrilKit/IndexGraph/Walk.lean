import BrilKit.IndexGraph.Build

/-!
# Depth-first walks

A walk goes through the graph from each of a list of starts, entering every block once. What it
does is a list of events. Reverse postorder and the loops of a graph are read off these events.
-/

namespace BrilKit

namespace IndexGraph

inductive Event where
  | enter (k : Nat)
  | leave (k : Nat)
  | restart
deriving Repr, DecidableEq

/-- The blocks entered so far, and the events, the latest first. -/
structure Walk where
  seen : List Nat := []
  events : List Event := []

def visit (next : List (List Nat)) : Nat → Nat → Walk → Outcome Walk
  | 0, _, _ => .error .unsettled
  | fuel + 1, k, w => do
    let targets ← itemAt next k
    if w.seen.contains k then return w
    let w := { seen := k :: w.seen, events := .enter k :: w.events }
    let w ← targets.foldlM (fun w t => visit next fuel t w) w
    return { w with events := .leave k :: w.events }

def walk (next : List (List Nat)) (starts : List Nat) : Outcome (List Event) := do
  let w ← starts.foldlM (fun w k => do
    let w ← visit next (next.length + 2) k w
    return { w with events := .restart :: w.events }) ({} : Walk)
  return w.events.reverse

def indices (g : IndexGraph) : List Nat := List.range g.size

def Event.left? : Event → Option Nat
  | .leave k => some k
  | _ => none

def reversePostorder (g : IndexGraph) : Outcome (List Nat) := do
  return ((← walk g.edges g.indices).filterMap Event.left?).reverse

def groups : List Nat → List Event → List (List Nat)
  | current, [] => if current.isEmpty then [] else [current]
  | current, .leave k :: es => groups (current ++ [k]) es
  | current, .restart :: es => if current.isEmpty then groups [] es else current :: groups [] es
  | current, .enter _ :: es => groups current es

/-- The loop that a group of blocks forms, its entrance first: there must be one way into the
group. No way in is a fault, several ways in mean no loop. -/
def loopOf (g : IndexGraph) (group : List Nat) : Outcome (Option (List Nat)) :=
  let ways := group.flatMap fun b =>
    ((g.preds.getD b []).filter fun p => !group.contains p).map fun _ => b
  match ways with
  | [] => .error .notListed
  | [b] => .ok (some (b :: group.erase b))
  | _ => .ok none

/-- The loops of a graph: the groups of more than one block that a walk against the edges finds
when it starts in reverse postorder. -/
def loops (g : IndexGraph) : Outcome (List (List Nat)) := do
  let events ← walk g.preds (← g.reversePostorder)
  let large := (groups [] events).filter fun c => decide (1 < c.length)
  return (← large.mapM g.loopOf).filterMap id

end IndexGraph

end BrilKit
