import BrilKit.Block.Named
import BrilKit.Listing.Blocks

/-!
# Flow graphs as drawings

The flow graph of each function in the language of a graph drawing program. The vertices can show
the instructions of their blocks.
-/

namespace BrilKit

namespace Listing

def quoteName (s : String) : String := if Letters.allAlnum s then s else "\"" ++ s ++ "\""

def vertex (verbose : Bool) (name : String) (b : Block) : Outcome String :=
  if verbose then do
    let texts ← b.mapM Instr.render
    return line ("  " ++ quoteName name ++ " [shape=box, xlabel=\"" ++ name ++ "\", label=\""
      ++ "\\l".intercalate texts ++ "\\l\"];")
  else .ok (line ("  " ++ name ++ ";"))

def edgesFrom (name : String) (b : Block) : Outcome String := do
  let lines := (← NamedBlocks.exits b).map fun target =>
    line ("  " ++ quoteName name ++ " -> " ++ quoteName target ++ ";")
  return String.join lines

def dotFunc (verbose : Bool) (f : Func) : Outcome String := do
  let title := line ("digraph " ++ (← f.getName) ++ " \x7b")
  let blocks ← (NamedBlocks.ofBody (← f.body)).addTerminators
  let vertices ← blocks.entries.mapM fun (n, b) => vertex verbose n b
  let edges ← blocks.entries.mapM fun (n, b) => edgesFrom n b
  return title ++ String.join vertices ++ String.join edges ++ line "\x7d"

def dot (verbose : Bool) (p : Program) : Outcome String := do
  return String.join (← (← p.funcs).mapM (dotFunc verbose))

end Listing

end BrilKit
