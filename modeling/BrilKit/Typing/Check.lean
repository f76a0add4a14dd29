import BrilKit.Typing.Infer

/-!
# Type checking

A checked program has no label that is also a variable, and no annotation that differs from the
inferred type.
-/

namespace BrilKit

namespace Typing

def assignedTypes (is : List Instr) : Table String Ty :=
  is.foldl (fun t i =>
    match i.setsLabel, i.dest, i.type with
    | false, some d, some ty => t.put d ty
    | _, _, _ => t) .empty

def notLabel (l : String) (t : Ty) : Fault :=
  .illTyped ("Expected \"" ++ l ++ "\" to be a label, but it was a variable of type \"" ++ t.text
    ++ "\"")

def checkLabel (types : Table String Ty) (l : String) : Outcome Unit :=
  match types.get? l with
  | some t => .error (notLabel l t)
  | none => .ok ()

def mistyped (inferred written : Ty) : Fault :=
  .illTyped ("Expected \"" ++ inferred.text ++ "\" to have type, but it was explicitly typed as \""
    ++ written.text ++ "\"")

/-- An annotation must be the inferred type. Tells whether there was nothing to object to. -/
def checkWritten (types : Table String Ty) (i : Instr) : Outcome Unit :=
  match i.dest, i.type with
  | some d, some t => do
    let inferred ← types.fetch d
    Outcome.guard (t.same inferred) (mistyped inferred t)
  | _, _ => .ok ()

def checkTargets (types : Table String Ty) (i : Instr) (op : String) : Outcome Unit := do
  if op == "jmp" then checkLabel types (← itemAt (← i.getLabels) 0)
  else if op == "br" then
    let ls ← i.getLabels
    checkLabel types (← itemAt ls 0)
    checkLabel types (← itemAt ls 1)
  else return ()

def checkInstr (types : Table String Ty) (i : Instr) : Outcome Unit := do
  if let some l := i.label then checkLabel types l
  match i.op with
  | none => return ()
  | some op =>
    checkWritten types i
    checkTargets types i op

def checkBody (is typed : List Instr) : Outcome Unit :=
  is.forM (checkInstr (assignedTypes typed))

def check (p typed : Program) : Outcome Unit := do
  let fs ← p.funcs
  let gs ← typed.funcs
  (fs.zip gs).forM fun (f, g) => do checkBody (← f.body) (← g.body)

end Typing

end BrilKit
