import BrilKit.Program.Basic

/-!
# Runs of labels

Of several labels in a row the first one is kept, and jumps to the others lead to it.
-/

namespace BrilKit

namespace Ssa

abbrev Replacements := List (String × String)

/-- The items that are kept and the labels to replace; `run` is the kept label when the item before
was a label. -/
def joinLabels : Option (Option String) → List Instr → List Instr × Replacements
  | _, [] => ([], [])
  | none, i :: is =>
    let (kept, rs) := joinLabels (if i.setsLabel then some i.label else none) is
    (i :: kept, rs)
  | some l, i :: is =>
    if i.setsLabel then
      let (kept, rs) := joinLabels (some l) is
      match i.label, l with
      | some old, some new => (kept, (old, new) :: rs)
      | _, _ => (kept, rs)
    else
      let (kept, rs) := joinLabels none is
      (i :: kept, rs)

def replaceLabels (rs : Replacements) (i : Instr) : Instr :=
  { i with labels := i.labels.map fun ls =>
      rs.foldl (fun ls (old, new) => ls.map fun l => if l = old then new else l) ls }

/-- The body with one label in each run of labels, and a return behind a label at the end. -/
def separateLabels (is : List Instr) : List Instr :=
  let (kept, rs) := joinLabels none is
  let is := kept.map (replaceLabels rs)
  if is.getLast?.any Instr.setsLabel then is ++ [{ op := some "ret" }] else is

end Ssa

end BrilKit
