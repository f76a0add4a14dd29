import BrilKit.FlowGraph.Dominance
import BrilKit.Ssa.Versions.Names

/-!
# Numbering the versions

The first half of a conversion to single-assignment form on flow graphs: every assignment gets a
version of its variable, and phis are put at the start of the blocks in the frontier of each
assigning block.
-/

namespace BrilKit

namespace Ssa

structure Style where
  graph : FlowGraph.Style
  /-- Whether pointers to named types can be merged by phis. -/
  pointers : Bool
  /-- Whether a phi counts as an assignment that needs phis in turn. -/
  iterated : Bool
  /-- Whether phis that merge nothing are removed in the end. -/
  prunes : Bool

def Style.direct : Style := ⟨.labelled, false, false, true⟩

def Style.iterative : Style := ⟨.looping, true, true, false⟩

abbrev Site := Nat × Ty

/-- The type of a variable as it is noted at a site. A type that is not a name cannot be noted,
except for pointers to named types where the style has them. -/
def siteType (style : Style) (t : Ty) : Outcome Ty :=
  match t with
  | .name s => .ok (.name s)
  | .app k u =>
    if style.pointers then
      if k = "ptr" then
        match u with
        | .name s => .ok (.name ("ptr " ++ s))
        | _ => .error .kind
      else .error (.missing "ptr")
    else .error .kind
  | .other d => if d.isRecord then .error (if style.pointers then .missing "ptr" else .kind)
    else .ok (.other d)

def phiType (style : Style) (t : Ty) : Outcome Ty :=
  if style.pointers then
    match t with
    | .name s =>
      if 2 ≤ (s.splitOn "ptr").length then do return .ptr (.name (← itemAt (s.splitOn " ") 1))
      else .ok t
    | _ => .error .kind
  else .ok t

def sites (style : Style) (g : FlowGraph) : Outcome (Table String (List Site)) :=
  g.zipIdx.foldlM (fun t (n, k) =>
    n.block.foldlM (fun (t : Table String (List Site)) i =>
      match i.dest with
      | none => .ok t
      | some d => do
        let ty ← siteType style (← i.getType)
        return t.alter d fun ss => Members.add (ss.getD []) (k, ty)) t) .empty

def phiPosition (x : String) : Nat → Block → Outcome (Option Nat)
  | _, [] => .ok none
  | k, i :: is =>
    if i.hasOp "phi" then do
      if variableOf (← i.getDest) == x then return some k else phiPosition x (k + 1) is
    else phiPosition x (k + 1) is

/-- The blocks, and how many versions of the variable at hand there are. -/
structure Numbered where
  blocks : List Block
  count : Nat := 0

def numberBlock (x : String) : Nat → Block → Nat × Block
  | n, [] => (n, [])
  | n, i :: is =>
    if i.dest == some x then
      let (m, js) := numberBlock x (n + 1) is
      (m, { i with dest := some (versionOf x (n + 1)) } :: js)
    else
      let (m, js) := numberBlock x n is
      (m, i :: js)

def Numbered.rename (s : Numbered) (x : String) (k : Nat) : Outcome Numbered := do
  let (n, b) := numberBlock x s.count (← itemAt s.blocks k)
  return { blocks := s.blocks.set k b, count := n }

def emptyPhi (version : String) (t : Ty) : Instr :=
  { op := some "phi", args := some [], dest := some version, labels := some [], type := some t }

def insertPhi (b : Block) (phi : Instr) : Block := b.take 1 ++ phi :: b.drop 1

/-- Put a phi for a variable into a block unless there is one; tells whether it was put. -/
def Numbered.place (style : Style) (s : Numbered) (x : String) (t : Ty) (k : Nat) :
    Outcome (Numbered × Bool) := do
  let b ← itemAt s.blocks k
  match ← phiPosition x 0 b with
  | some _ => return (s, false)
  | none =>
    let n := s.count + 1
    let phi := emptyPhi (versionOf x n) (← phiType style t)
    return ({ blocks := s.blocks.set k (insertPhi b phi), count := n }, true)

def Numbered.placeAll (style : Style) (x : String) (t : Ty) :
    Numbered → List Nat → Outcome (Numbered × List Nat)
  | s, [] => .ok (s, [])
  | s, k :: ks => do
    let (s, new) ← s.place style x t k
    let (s, placed) ← placeAll style x t s ks
    return (s, if new then k :: placed else placed)

/-- Number a variable at its sites and put its phis, those of phis included when the style says
so. -/
def numberSites (style : Style) (frontier : Table Nat (List Nat)) (x : String) :
    Nat → Numbered → List Site → Outcome Numbered
  | 0, _, _ => .error .unsettled
  | _ + 1, s, [] => .ok s
  | fuel + 1, s, (k, t) :: rest => do
    let s ← s.rename x k
    let (s, placed) ← s.placeAll style x t (frontier.getD k [])
    let more := if style.iterated then placed.map fun j => (j, t) else []
    numberSites style frontier x fuel s (rest ++ more)

def siteBound (g : FlowGraph) (ss : List Site) : Nat :=
  (ss.length + g.length + 2) * (g.length + 2)

/-- The sites of a variable are a set; an order to go through them. -/
structure SiteOrder where
  apply : String → List Site → List Site
  perm : ∀ x ss, (apply x ss).Perm ss

/-- The order in which the sites stand in the blocks. -/
def SiteOrder.listed : SiteOrder := ⟨fun _ ss => ss, fun _ _ => .refl _⟩

def numberVar (order : SiteOrder) (style : Style) (g : FlowGraph) (frontier : Table Nat (List Nat))
    (blocks : List Block) (e : String × List Site) : Outcome (List Block) := do
  let ss := order.apply e.1 e.2
  return (← numberSites style frontier e.1 (siteBound g ss) { blocks } ss).blocks

def numberBy (order : SiteOrder) (style : Style) (g : FlowGraph) : Outcome (List Block) := do
  let frontier := FlowGraph.frontier (← FlowGraph.DomState.settle g)
  let vars ← sites style g
  vars.entries.foldlM (numberVar order style g frontier) g.blocks

end Ssa

end BrilKit
