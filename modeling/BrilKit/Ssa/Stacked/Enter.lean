import BrilKit.FlowGraph.Build
import BrilKit.IndexGraph.Dominance
import BrilKit.Ssa.Stacked.Labels

/-!
# Single assignment with stacks of names

Each variable has a stack of names. A definition pushes a new name, and a use takes the name on top.
-/

namespace BrilKit

namespace Ssa

namespace Stacked

/-- The body behind a block that copies every parameter to itself, if there are parameters. -/
def withCopies (f : Func) : Outcome (List Instr) :=
  match f.params with
  | [] => f.body
  | ps => do
    let copies ← ps.mapM Func.selfCopy
    return .labelled "pre_entry" :: copies.reverse ++ (← f.body)

/-- The blocks that define each variable, as often as they do; parameters in the first block. -/
def definitions (f : Func) (g : IndexGraph) : Outcome (Table String (List Nat)) := do
  let params ← (← f.paramList).mapM Param.getName
  let start : Table String (List Nat) := .ofList (params.map fun x => (x, [0]))
  return g.blocks.zipIdx.foldl (fun defs (b, k) =>
    (b.filterMap Instr.dest).foldl (fun (defs : Table String (List Nat)) x =>
      defs.alter x fun ks => ks.getD [] ++ [k]) defs) start

/-- A phi that has collected its operands so far. -/
structure Phi where
  dest : Option String := none
  args : List String := []
  labels : List (Option String) := []

abbrev Phis := List (Table String Phi)

/-- Put phis for a variable into the frontiers of the blocks that define it, those of phis
included. The list of blocks only grows by blocks that are not in it. -/
def place (frontier : List (List Nat)) (x : String) : Nat → List Nat → List Nat → Phis → Phis
  | 0, _, _, phis => phis
  | _ + 1, _, [], phis => phis
  | fuel + 1, done, k :: rest, phis =>
    let targets := frontier.getD k []
    let phis := targets.foldl (fun phis t =>
      phis.modify t fun table => if table.has x then table else table.put x {}) phis
    let new := targets.filter fun t => !(done ++ k :: rest).contains t
    place frontier x fuel (done ++ [k]) (rest ++ new) phis

def placeAll (frontier : List (List Nat)) (defs : Table String (List Nat)) : Phis :=
  defs.entries.foldl (fun phis (x, ks) =>
    place frontier x (ks.length + frontier.length + 1) [] ks phis)
    (frontier.map fun _ => .empty)

structure State where
  blocks : List Block
  phis : Phis
  /-- The names of each variable, the latest first. -/
  current : Table String (List String)
  next : Table String Nat

def State.push (s : State) (x : String) : Outcome (String × State) := do
  let n ← s.next.fetch x
  let name := x ++ "_" ++ toString n
  let stack ← s.current.fetch x
  return (name, { s with next := s.next.put x (n + 1), current := s.current.put x (name :: stack) })

def State.top (s : State) (x : String) : Outcome String := do itemAt (← s.current.fetch x) 0

def State.namePhis (s : State) (k : Nat) : Outcome State :=
  (s.phis.getD k .empty).keys.foldlM (fun s x => do
    let (name, s) ← s.push x
    let named (p : Option Phi) : Phi := { p.getD ({} : Phi) with dest := some name }
    return { s with phis := s.phis.modify k fun t => t.alter x named }) s

/-- The operands of an instruction under their present names. The second operand of a member
access is not a variable. -/
def State.operands (s : State) (i : Instr) : Outcome (Option (List String)) :=
  match i.args with
  | none => if (i.extra.lookup "args").isSome then .error .kind else .ok none
  | some xs =>
    if i.hasOp "getmbr" then do
      let a ← s.top (← itemAt xs 0)
      return some [a, ← itemAt xs 1]
    else do return some (← xs.mapM s.top)

def State.instr (s : State) (i : Instr) : Outcome (Instr × State) := do
  let i := { i with args := ← s.operands i }
  match i.dest with
  | none => return (i, s)
  | some d =>
    let (name, s) ← s.push d
    return ({ i with dest := some name }, s)

def State.instrs (s : State) : Block → Outcome (Block × State)
  | [] => .ok ([], s)
  | i :: is => do
    let (j, s) ← s.instr i
    let (js, s) ← s.instrs is
    return (j :: js, s)

/-- Hand the present names to the phis of a successor. A phi for a variable without a name goes
away. -/
def State.feed (s : State) (label : Option String) (t : Nat) : Outcome State :=
  (s.phis.getD t .empty).keys.foldlM (fun s x => do
    match ← s.current.fetch x with
    | [] => return { s with phis := s.phis.modify t fun table => table.erase x }
    | name :: _ =>
      let fed (p : Option Phi) : Phi :=
        let p := p.getD ({} : Phi)
        { p with args := p.args ++ [name], labels := p.labels ++ [label] }
      return { s with phis := s.phis.modify t fun table => table.alter x fed }) s

def State.pop (s : State) (b : Block) : State :=
  { s with current := (b.filterMap Instr.dest).foldl (fun current x =>
      current.alter x fun names => (names.getD []).tail) s.current }

def rename (g : IndexGraph) (tree : Table (Option Nat) (List Nat)) :
    Nat → Nat → State → Outcome State
  | 0, _, _ => .error .unsettled
  | fuel + 1, k, s => do
    let s ← s.namePhis k
    let b ← itemAt g.blocks k
    let (c, s) ← s.instrs b
    let s := { s with blocks := s.blocks.set k c }
    let s ← (g.edges.getD k []).foldlM (fun s t => s.feed (g.names.getD k none) t) s
    let s ← (tree.getD (some k) []).foldlM (fun s t => rename g tree fuel t s) s
    return s.pop b

def Phi.instr? (p : Phi) : Option Instr :=
  if (Members.ofList p.labels).length ≤ 1 || (Members.ofList p.args).length ≤ 1 then none
  else some { op := some "phi", args := some p.args, labels := some (p.labels.filterMap id),
              dest := p.dest }

def withPhis (name : Option String) (phis : Table String Phi) (b : Block) : Block :=
  let b := if b.head?.any Instr.setsLabel then b else { label := name } :: b
  b.take 1 ++ (phis.values.filterMap Phi.instr?).reverse ++ b.drop 1

def isClosed (b : Block) : Bool := b.getLast?.any Instr.isTerminator

/-- Make blocks that run on jump to the next one; the last one returns. -/
def closeBlocks : List Block → List Block
  | [] => []
  | [b] => [if isClosed b then b else b ++ [{ op := some "ret" }]]
  | b :: c :: bs =>
    let target := (c.head?.bind Instr.label).toList
    (if isClosed b then b else b ++ [{ op := some "jmp", labels := some target }])
      :: closeBlocks (c :: bs)

def enter (f : Func) : Outcome Func := do
  let is := separateLabels (← withCopies f)
  let g ← IndexGraph.ofBody is
  let d ← g.dominance
  let defs ← definitions f g
  let params ← (← f.paramList).mapM Param.getName
  let start : State :=
    { blocks := g.blocks
      phis := placeAll d.frontier defs
      current := params.foldl (fun t x => t.put x [x]) (defs.map fun _ => [])
      next := defs.map fun _ => 0 }
  let s ← rename g d.tree (g.size + 2) 0 start
  let blocks := (s.blocks.zip (g.names.zip s.phis)).map fun (b, n, p) => withPhis n p b
  return f.withBody (closeBlocks blocks).flatten

end Stacked

end Ssa

end BrilKit
