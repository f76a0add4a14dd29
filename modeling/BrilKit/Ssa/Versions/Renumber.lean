import BrilKit.Ssa.Versions.Names
import BrilKit.Text.Numeral

/-!
# Canonical numbers of versions

The numbers of versions depend on the order in which assigning blocks are visited. Renumbering
makes them depend on the function alone: versions are counted in the order in which parameters and
assignments name them.
-/

namespace BrilKit

namespace Ssa

/-- The variable and the number of a version: what stands before and behind the last dot, when the
latter is a run of digits. -/
def versionBase? (name : String) : Option String :=
  match (nameParts name).reverse with
  | last :: first :: rest =>
    if Numeral.isPlain last then some (".".intercalate (first :: rest).reverse) else none
  | _ => none

/-- The new names given out so far, and how many each variable has. -/
structure Renumbering where
  names : Table String String := .empty
  counts : Table String Nat := .empty

def Renumbering.take (r : Renumbering) (name : String) : Renumbering :=
  if r.names.has name then r
  else
    match versionBase? name with
    | none => r
    | some base =>
      let n := r.counts.getD base 0 + 1
      { names := r.names.put name (versionOf base n), counts := r.counts.put base n }

def Renumbering.apply (r : Renumbering) (name : String) : String := r.names.getD name name

/-- The names that a function's parameters and instructions assign, in order. -/
def assignedNames (f : Func) : List String :=
  f.params.filterMap Param.name ++ (f.instrs.getD []).filterMap Instr.dest

def Renumbering.instr (r : Renumbering) (i : Instr) : Instr :=
  { i with dest := i.dest.map r.apply, args := i.args.map fun xs => xs.map r.apply }

def renumber (f : Func) : Func :=
  let r := (assignedNames f).foldl Renumbering.take {}
  { f with args := f.args.map fun ps => ps.map fun p => { p with name := p.name.map r.apply },
           instrs := f.instrs.map fun is => is.map r.instr }

end Ssa

end BrilKit
