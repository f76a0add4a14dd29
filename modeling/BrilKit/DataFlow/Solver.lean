import BrilKit.Block.Named

/-!
# Data-flow analyses on named blocks

An analysis says in which direction facts flow, what holds at the start, how facts from several
sides merge and what a block does to them.
-/

namespace BrilKit

/-- A data-flow analysis with facts of type `α`. -/
structure Analysis (α : Type) where
  /-- Whether facts flow along the edges or against them. -/
  forward : Bool
  init : α
  merge : List α → α
  /-- The facts behind a block, in the direction of the flow. -/
  transfer : Block → α → Outcome α
  same : α → α → Bool

namespace Analysis

variable {α : Type}

/-- The facts before and behind every block, in the direction of the flow, and the blocks that
have to be visited. -/
structure State (α : Type) where
  before : Table String α
  behind : Table String α
  pending : List String

def visit (a : Analysis α) (blocks : NamedBlocks) (sources targets : FlowMap) (node : String)
    (rest : List String) (s : State α) : Outcome (State α) := do
  let from_ ← sources.fetch node
  let facts ← from_.mapM s.behind.fetch
  let before := a.merge facts
  let behind ← a.transfer (← blocks.fetch node) before
  let old ← s.behind.fetch node
  let table := s.before.put node before
  if a.same behind old then return ⟨table, s.behind, rest⟩
  else return ⟨table, s.behind.put node behind, rest ++ (← targets.fetch node)⟩

def run (a : Analysis α) (blocks : NamedBlocks) (sources targets : FlowMap) :
    Nat → State α → Outcome (State α)
  | 0, _ => .error .unsettled
  | fuel + 1, s =>
    match s.pending with
    | [] => .ok s
    | node :: rest => do
      let s ← visit a blocks sources targets node rest s
      run a blocks sources targets fuel s

def namesIn (blocks : NamedBlocks) : List String :=
  Members.ofList (blocks.values.flatMap fun b => b.flatMap fun i => i.dest.toList ++ i.uses)

/-- The steps that a run can take: every fact about a name changes at most twice at each block,
and a change makes the neighbours pending. -/
def steps (blocks : NamedBlocks) (targets : FlowMap) : Nat :=
  let edges := targets.values.foldl (fun n ts => n + ts.length) 0
  blocks.size + (2 * (namesIn blocks).length + 1) * edges + 2

/-- The block at which facts enter: the first, or the last when they flow backward. -/
def firstBlock (a : Analysis α) (blocks : NamedBlocks) : Outcome String :=
  match if a.forward then blocks.keys.head? else blocks.keys.getLast? with
  | some n => .ok n
  | none => .error .outOfRange

def solve (a : Analysis α) (blocks : NamedBlocks) : Outcome (Table String α × Table String α) := do
  let (preds, succs) ← blocks.edges
  let (sources, targets) := if a.forward then (preds, succs) else (succs, preds)
  let first ← firstBlock a blocks
  let start : State α :=
    ⟨.ofList [(first, a.init)], blocks.map fun _ => a.init, blocks.keys⟩
  let s ← run a blocks sources targets (steps blocks targets) start
  return if a.forward then (s.before, s.behind) else (s.behind, s.before)

end Analysis

end BrilKit
