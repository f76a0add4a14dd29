import BrilKit.Data.Members
import BrilKit.Program.Codec

/-!
# The texts of traces

A trace is a text with a line for each thing that happens in a run. Sets and tables are written
between braces, lists between brackets, and names in them between quotes.
-/

namespace BrilKit

namespace Trace

def line (s : String) : String := s ++ "\n"

def lines (ls : List String) : String := String.join (ls.map line)

def rule : String := line "-------------------------"

def title (s : String) : String := line ("-----" ++ s ++ "-----")

def setText (items : List String) : String :=
  if items.isEmpty then "set()" else "\x7b" ++ ", ".intercalate items ++ "\x7d"

def nameSet (s : List String) : String := setText ((sortNames s).map Quoted.quote)

def natSet (s : List Nat) : String := setText ((sortNats s).map toString)

def listText (items : List String) : String := "[" ++ ", ".intercalate items ++ "]"

def natList (ns : List Nat) : String := listText (ns.map toString)

def tableText (entries : List (String × String)) : String :=
  "\x7b" ++ ", ".intercalate (entries.map fun (k, v) => k ++ ": " ++ v) ++ "\x7d"

def nameTable (t : Table String String) : String :=
  tableText (t.entries.map fun (k, v) => (Quoted.quote k, Quoted.quote v))

def instr (i : Instr) : String := i.toDatum.text

def label (l : Option String) : String := l.getD "None"

end Trace

end BrilKit
