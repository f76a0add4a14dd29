import BrilKit.Data.Table

/-!
# Causes of failure

Every operation of the library that can fail returns `Outcome α`: a value or a `Fault`. A fault
names the cause; `Fault.message` gives its wording.
-/

namespace BrilKit

inductive Fault where
  /-- A field, label, variable or number that a look-up needs is not there. -/
  | missing (key : String)
  /-- A value of the wrong kind, or the wrong number of operands. -/
  | kind
  | noOperation
  | outOfRange
  | divisionByZero
  | overflow
  | exhausted
  | violated (what : String)
  /-- A pass gives up on the program, with these words. -/
  | stopped (words : String)
  /-- A text that is not an integer numeral, in its quoted form. -/
  | notNumeral (quoted : String)
  /-- An instruction that ends a block without being a terminator. -/
  | notTerminator (op : String)
  /-- The removal of an item that a list does not hold. -/
  | notListed
  | illTyped (words : String)
  /-- A mean of no numbers, or of numbers that are not positive. -/
  | noMean
  /-- A harmonic mean of numbers some of which are negative. -/
  | negativeMean
  /-- A row with more fields than the table has columns. -/
  | surplusField
  | noExtension
  | ungrammatical
  | malformedJson
  | malformedConfig
  | noConfigKey (key : String)
  | badParameter
  /-- A command line value that is required and absent. -/
  | missingParameter
  | unknownOption
  /-- A brace that closes nothing in a command template. -/
  | loneBrace
  /-- A brace that nothing closes in a command template. -/
  | openBrace
  /-- A field of a command template that is not closed. -/
  | openField
  /-- A field of a command template whose form is not understood. -/
  | badField
  /-- A command that took longer than allowed, with the number of seconds. -/
  | timedOut (command seconds : String)
  | noWorkers
  | missingValue
  | badPattern
  /-- An input that was closed before the end of a run. -/
  | closedInput
  /-- A file that cannot be opened, by its path in quoted form. -/
  | noFile (quoted : String)
  | undefinedName
  /-- A run that did not settle within the number of steps that its input allows. -/
  | unsettled
deriving Repr, DecidableEq, Inhabited

abbrev Outcome (α : Type) := Except Fault α

def Fault.message : Fault → Option String
  | .missing key => some key
  | .violated what => some what
  | .stopped words => some words
  | .notNumeral quoted => some ("invalid literal for int() with base 10: " ++ quoted)
  | .notTerminator op => some (op ++ " is not a terminator")
  | .notListed => some "list.remove(x): x not in list"
  | .illTyped words => some words
  | .noMean => some "geometric mean requires a non-empty dataset containing positive numbers"
  | .negativeMean => some "harmonic mean does not support negative values"
  | .surplusField => some "dict contains fields not in fieldnames: None"
  | .noExtension => some "not enough values to unpack (expected 2, got 1)"
  | .noConfigKey key => some ("Key \"" ++ key ++ "\" does not exist.")
  | .loneBrace => some "Single '\x7d' encountered in format string"
  | .openBrace => some "Single '\x7b' encountered in format string"
  | .openField => some "expected '\x7d' before end of string"
  | .badField => some "Invalid format specifier"
  | .timedOut command seconds =>
    some ("Command '" ++ command ++ "' timed out after " ++ seconds ++ " seconds")
  | .noWorkers => some "max_workers must be greater than 0"
  | .noFile quoted => some ("[Errno 2] No such file or directory: " ++ quoted)
  | .closedInput => some "I/O operation on closed file."
  | _ => none

def Outcome.ofOption {α : Type} (key : String) : Option α → Outcome α
  | some a => .ok a
  | none => .error (.missing key)

def itemAt {α : Type} (xs : List α) (i : Nat) : Outcome α :=
  match xs[i]? with
  | some a => .ok a
  | none => .error .outOfRange

def Table.fetch {α : Type} (t : Table String α) (k : String) : Outcome α := .ofOption k (t.get? k)

def Outcome.guard (condition : Bool) (fault : Fault) : Outcome Unit :=
  if condition then .ok () else .error fault

end BrilKit
