import BrilKit.Program.Basic

/-!
# Types of the target

The text and the size of types, and the layout of structures.
-/

namespace BrilKit

namespace Llvm

def pointee : Ty → Outcome Ty
  | .app "ptr" t => .ok t
  | .other (.record fs) => do return .ofDatum (← Outcome.ofOption "ptr" (fs.lookup "ptr"))
  | .app _ _ => .error (.missing "ptr")
  | _ => .error .kind

def isPointer : Ty → Bool
  | .app "ptr" _ => true
  | .other (.record fs) => (fs.lookup "ptr").isSome
  | _ => false

/-- The text of a type: names other than the known ones are those of structures. -/
def typeText : Ty → Outcome String
  | .name "int" => .ok "i64"
  | .name "bool" => .ok "i1"
  | .name s => .ok ("%" ++ s)
  | .app "ptr" t => do return (← typeText t) ++ "*"
  | _ => .error .kind

/-- The sizes and the member positions of the structures declared so far. -/
structure Layout where
  sizes : Table String Nat := .empty
  positions : Table String (Table String Nat) := .empty

def Layout.size (l : Layout) (t : Ty) : Outcome Nat :=
  if isPointer t then .ok 8
  else
    match t with
    | .name "bool" => .ok 1
    | .name s => .ok (l.sizes.getD s 8)
    | .app .. => .error .kind
    | .other d =>
      match d with
      | .list _ => .error .kind
      | .record _ => .error .kind
      | _ => .ok 8

def Layout.position (l : Layout) (struct : Ty) (member : Outcome String) : Outcome Nat :=
  match struct with
  | .name s => do
    let members ← l.positions.fetch s
    members.fetch (← member)
  | .app .. => .error .kind
  | .other d => if d.isRecord then .error .kind else .error (.missing d.text)

def Layout.member (l : Layout) (acc : Nat × Table String Nat × List String) (p : Param)
    (k : Nat) : Outcome (Nat × Table String Nat × List String) := do
  let (size, positions, texts) := acc
  let t ← p.getType
  let n ← l.size t
  let x ← p.getName
  return (size + n, positions.put x k, texts ++ [← typeText t])

def Layout.declare (l : Layout) (s : Struct) : Outcome (Layout × String) := do
  let name ← Outcome.ofOption "name" s.name
  let members ← Outcome.ofOption "mbrs" s.members
  let (size, positions, texts) ← members.zipIdx.foldlM (fun acc (p, k) => l.member acc p k)
    (0, .empty, [])
  return ({ sizes := l.sizes.put name size, positions := l.positions.put name positions },
    "%" ++ name ++ " = type \x7b " ++ ", ".intercalate texts ++ " \x7d\n")

def Layout.declareAll (l : Layout) : List Struct → Outcome (Layout × String)
  | [] => .ok (l, "")
  | s :: ss => do
    let (l, text) ← l.declare s
    let (l, texts) ← l.declareAll ss
    return (l, text ++ texts)

end Llvm

end BrilKit
