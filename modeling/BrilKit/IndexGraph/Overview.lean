import BrilKit.IndexGraph.Build
import BrilKit.Program.Basic

/-!
# An overview of a program's flow graphs

The overview shows the graph of a function as a drawing, which is also left in a folder, and as
lists. It then asks for a table of dominators that nobody provides, and so never comes to a second
function.
-/

namespace BrilKit

namespace IndexGraph

structure Overview where
  text : String := ""
  /-- The drawings left in the folder, with the names of their files. -/
  drawings : List (String × String) := []
  /-- Why it ended, if it did not come to the end of the program. -/
  fault : Option Fault := none

def showLists (xs : List (List Nat)) : String :=
  let one (ns : List Nat) : String := "[" ++ ", ".intercalate (ns.map toString) ++ "]"
  "[" ++ ", ".intercalate (xs.map one) ++ "]"

/-- The overview of a function; the folder for drawings may be missing. -/
def overviewFunc (hasFolder : Bool) (f : Func) : Overview :=
  match f.getName with
  | .error fault => { fault := some fault }
  | .ok name =>
    let title := "**Function: " ++ name ++ "\n"
    let drawn : Outcome (IndexGraph × String) := do
      let g ← ofBody (← f.body)
      return (g, ← g.dot)
    match drawn with
    | .error fault => { text := title, fault := some fault }
    | .ok (g, drawing) =>
      if hasFolder then
        { text := title ++ drawing ++ "\n" ++ g.listNames ++ "  edges: " ++ showLists g.edges
            ++ "\n  preds: " ++ showLists g.preds ++ "\n"
          drawings := [(name ++ "-cfg.dot", drawing)]
          fault := some .undefinedName }
      else
        let path := Quoted.quote ("graphs/" ++ name ++ "-cfg.dot")
        { text := title, fault := some (.noFile path) }

def overview (hasFolder : Bool) (p : Program) : Overview :=
  match p.funcs with
  | .error fault => { fault := some fault }
  | .ok [] => {}
  | .ok (f :: _) => overviewFunc hasFolder f

end IndexGraph

end BrilKit
