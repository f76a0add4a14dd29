import BrilKit.Data.Members

/-!
# Names of files

A file pattern has `*` for any part of a name, `?` for one character, and `**` for any number of
directories. A name that begins with a dot must be asked for.
-/

namespace BrilKit

namespace Glob

def parts (path : String) : List String := (path.splitOn "/").filter fun p => p ≠ "."

def fits : List Char → List Char → Bool
  | [], [] => true
  | '*' :: ps, [] => fits ps []
  | '*' :: ps, c :: cs => fits ps (c :: cs) || fits ('*' :: ps) cs
  | '?' :: ps, _ :: cs => fits ps cs
  | p :: ps, c :: cs => p == c && fits ps cs
  | _, [] => false
  | [], _ => false
termination_by ps cs => ps.length + cs.length

def fitsPart (pattern name : String) : Bool :=
  let hidden := name.toList.head? == some '.' && pattern.toList.head? != some '.'
  !hidden && fits pattern.toList name.toList

def fitsParts : List String → List String → Bool
  | [], [] => true
  | "**" :: ps, [] => fitsParts ps []
  | "**" :: ps, n :: ns =>
    fitsParts ps (n :: ns) || (n.toList.head? != some '.' && fitsParts ("**" :: ps) ns)
  | p :: ps, n :: ns => fitsPart p n && fitsParts ps ns
  | _, [] => false
  | [], _ => false
termination_by ps ns => ps.length + ns.length

def select (pattern : String) (paths : List String) : List String :=
  paths.filter fun path => fitsParts (parts pattern) (parts path)

def baseName (path : String) : String := ((path.splitOn "/").getLast?).getD ""

/-- The last part of a path without its extension. Dots at the start are part of the name. -/
def stem (path : String) : String :=
  let (dots, name) := (baseName path).toList.span fun c => c = '.'
  match (String.ofList name).splitOn "." with
  | [] => String.ofList dots
  | [n] => String.ofList dots ++ n
  | ns => String.ofList dots ++ ".".intercalate ns.dropLast

end Glob

end BrilKit
