import BrilKit.Trace.Text
import BrilKit.ValueNumbering.Versioned

/-!
# Traces of value numbering

What happens while the values of blocks are numbered.
-/

namespace BrilKit

namespace Trace

namespace Numbering

open BrilKit.ValueNumbering

def valueLines (scope : Scope) (r : Register) (i : Instr) (op : String) : Outcome String := do
  match ← r.operands i with
  | none => return ""
  | some (args, allConst) =>
    let (j, text) ← Versioned.evaluate scope i op args allConst
    let number := Versioned.known r j text
    let replaced := match number with
      | some n => line ("Replace " ++ label i.dest ++ " with " ++ toString n)
      | none => ""
    return line ("Compute the value " ++ text)
      ++ line ("Matched num: " ++ (number.elim "None" fun (n : Nat) => toString n)) ++ replaced

def stepLines (scope : Scope) (r : Register) (i : Instr) : Outcome (String × Register) := do
  match i.op with
  | none => return ("", r)
  | some op =>
    let first := line (instr i)
    if Versioned.skips scope i op then return (first, r)
    let value ← valueLines scope r i op
    let (r, _) ← Versioned.step scope r i
    return (first ++ value ++ (← r.render) ++ rule, r)

def blockLines (scope : Scope) : Register → Block → Outcome String
  | _, [] => .ok ""
  | r, i :: is => do
    let (here, r) ← stepLines scope r i
    return here ++ (← blockLines scope r is)

def numbered (scope : Scope) (style : FlowGraph.Style) (f : Func) : Outcome String := do
  let g ← f.labelledGraph style false
  let texts ← g.blocks.zipIdx.mapM fun (b, k) => do
    return title ("Block " ++ toString k) ++ (← blockLines scope {} b)
  return String.join texts

end Numbering

end Trace

end BrilKit
