import BrilKit.Program.Basic
import BrilKit.Ssa.Placement

/-!
# Conversion to single-assignment form

Every assignment gets a version of its variable of its own.
-/

namespace BrilKit

namespace Ssa

/-- The operands that a phi has collected: the block each comes from, and the version. -/
abbrev Sources := List (String × String)

/-- The state of the walk down the dominator tree. -/
structure Renaming where
  blocks : NamedBlocks
  /-- The versions of each variable that are in force, the innermost first. -/
  versions : Table String (List String)
  counts : Table String Nat := .empty
  sources : Table String (Table String Sources)
  results : Table String (Table String String)

def undefinedName : String := "__undefined"

def Renaming.push (s : Renaming) (v : String) : String × Renaming :=
  let n := s.counts.getD v 0
  let fresh := v ++ "." ++ toString n
  (fresh, { s with counts := s.counts.put v (n + 1),
                   versions := s.versions.alter v fun vs => fresh :: vs.getD [] })

def Renaming.current (s : Renaming) (v : String) : Outcome String := itemAt (s.versions.getD v []) 0

def Renaming.startPhis (s : Renaming) (block : String) (vars : List String) : Renaming :=
  vars.foldl (fun s v =>
    let (fresh, s) := s.push v
    { s with results := s.results.alter block fun t => (t.getD .empty).put v fresh }) s

def Renaming.instr (s : Renaming) (i : Instr) : Outcome (Instr × Renaming) := do
  let args ← i.args.mapM fun xs => xs.mapM s.current
  let i := { i with args }
  match i.dest with
  | none => return (i, s)
  | some d =>
    let (fresh, s) := s.push d
    return ({ i with dest := some fresh }, s)

def Renaming.instrs (s : Renaming) : Block → Outcome (Block × Renaming)
  | [] => .ok ([], s)
  | i :: is => do
    let (i, s) ← s.instr i
    let (is, s) ← s.instrs is
    return (i :: is, s)

def Renaming.feed (s : Renaming) (block target : String) (vars : List String) : Renaming :=
  vars.foldl (fun s v =>
    let version := (s.versions.getD v []).headD undefinedName
    { s with sources := s.sources.alter target fun t =>
        (t.getD .empty).alter v fun ps => ps.getD [] ++ [(block, version)] }) s

/-- Rename a block and all below it in the dominator tree. The depth of the tree is bounded by the
number of blocks. -/
def rename (phis succ tree : FlowMap) : Nat → String → Renaming → Outcome Renaming
  | 0, _, _ => .error .unsettled
  | fuel + 1, block, s => do
    let outer := s.versions
    let s := s.startPhis block (← phis.fetch block)
    let (is, s) ← s.instrs (← s.blocks.fetch block)
    let s := { s with blocks := s.blocks.put block is }
    let s ← (← succ.fetch block).foldlM (fun (s : Renaming) target => do
      return s.feed block target (← phis.fetch target)) s
    let s ← (sortNames (← tree.fetch block)).foldlM (fun s child =>
      rename phis succ tree fuel child s) s
    return { s with versions := outer }

/-- The phi of a variable, from what the walk has collected. In a block that the walk has not come
to the result has no name, which is written down. -/
def phi (s : Renaming) (types : Table String Ty) (block : String) (entry : String × Sources) :
    Outcome Instr := do
  let (v, ps) := entry
  let type ← types.fetch v
  let dest := (s.results.getD block .empty).get? v
  return { op := some "phi", dest, type := some type,
           labels := some (ps.map Prod.fst), args := some (ps.map Prod.snd),
           extra := if dest.isSome then [] else [("dest", .null)] }

/-- The blocks with their phis in front, in descending order of the variables. -/
def withPhis (s : Renaming) (types : Table String Ty) : Outcome NamedBlocks := do
  let es ← s.blocks.entries.mapM fun (n, b) => do
    let collected := (s.sources.getD n .empty).entries.mergeSort fun a b => decide (a.1 ≤ b.1)
    let phis ← collected.mapM (phi s types n)
    return (n, phis.reverse ++ b)
  return ⟨es⟩

def variableTypes (f : Func) : Outcome (Table String Ty) := do
  let start ← (← f.paramList).foldlM (fun (t : Table String Ty) p => do
    return t.put (← p.getName) (← p.getType)) .empty
  (← f.body).foldlM (fun t i =>
    match i.dest with
    | some d => do return t.put d (← i.getType)
    | none => .ok t) start

def enter (f : Func) : Outcome Func := do
  let blocks ← NamedBlocks.explicit (← f.body)
  let succ ← blocks.successors
  let entry ← blocks.entry
  let dom ← Dominators.compute succ entry
  let frontiers ← Dominators.frontiers dom succ
  let types ← variableTypes f
  let args ← (← f.paramList).mapM Param.getName
  let phis ← placePhis blocks frontiers (definingBlocks blocks)
  let tree ← Dominators.tree dom
  let start : Renaming :=
    { blocks
      versions := .ofList (args.map fun v => (v, [v]))
      sources := phis.map fun vs => .ofList (vs.map fun v => (v, []))
      results := .empty }
  let s ← rename phis succ tree (blocks.size + 1) entry start
  return f.withBody (← withPhis s types).reassemble

def isSingle (is : List Instr) : Bool := decide (is.filterMap Instr.dest).Nodup

/-- Whether all functions are in single-assignment form; functions behind one that is not are not
looked at. -/
def allSingle : List Func → Outcome Bool
  | [] => .ok true
  | f :: fs => do if isSingle (← f.body) then allSingle fs else return false

end Ssa

end BrilKit
