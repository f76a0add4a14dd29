import BrilKit.Bench.Shell.Run
import BrilKit.Bench.Template
import BrilKit.Data.Datum

/-!
# Pipelines of a benchmark

A benchmark's text is sent through a sequence of commands, each of which reads what the one in
front of it writes. The result is what the last one writes. A run that takes too long is a fault.
-/

namespace BrilKit

namespace Bench

/-- The longest time a pipeline may take, in milliseconds, and the words for it in seconds. -/
structure Limit where
  milliseconds : Nat
  seconds : String
deriving Repr, DecidableEq

def Limit.standard : Limit := ⟨5000, "5"⟩

def Limit.ofDatum : Datum → Limit
  | .int i => ⟨(i * 1000).toNat, toString i⟩
  | .float x => ⟨(x * 1000).ceil.toUInt64.toNat, Decimal.ofFloat x⟩
  | _ => standard

/-- The output and the errors of the last command of a pipeline. -/
structure Streams where
  output : String
  errors : String
deriving Repr, DecidableEq

def feedLines : List Char → List Char
  | '\r' :: '\n' :: cs => '\n' :: feedLines cs
  | '\r' :: cs => '\n' :: feedLines cs
  | c :: cs => c :: feedLines cs
  | [] => []

def plainLines (text : String) : String := String.ofList (feedLines text.toList)

/-- Send a text through commands that run side by side. Of the errors only those of the last
command are kept. -/
def flow (files : Shell.Files) (text : String) (commands : List String) : Shell.State :=
  commands.foldl (fun before c =>
    Shell.runText c { input := before.output, inputEnd := before.clock, files := before.files })
    { output := text, files }

/-- Run a pipeline. It must have at least two commands: the first one's input is closed before the
last one's output is read, so they cannot be the same. -/
def runPipeline (limit : Limit) (files : Shell.Files) (text : String) (commands : List String) :
    Outcome Streams :=
  match commands with
  | [] => .error .outOfRange
  | [_] => .error .closedInput
  | _ =>
    let last := flow files text commands
    if limit.milliseconds ≤ last.clock then
      .error (.timedOut (commands.getLast?.getD "") limit.seconds)
    else .ok ⟨plainLines last.output, plainLines last.errors⟩

def argumentMark : Pattern :=
  .seq (Pattern.literal "ARGS: ") (.group 1 (.many Pattern.any))

def argumentsOf (text : String) : String :=
  match Pattern.search argumentMark text with
  | some m => (m.groups.lookup 1).getD ""
  | none => ""

/-- Run a benchmark: its text through commands that may mention its arguments. -/
def runBenchmark (limit : Limit) (files : Shell.Files) (text : String) (templates : List String) :
    Outcome Streams := do
  let text := plainLines text
  let commands ← templates.mapM (Template.fill (argumentsOf text))
  runPipeline limit files text commands

def figure (pattern : String) (texts : List String) : Outcome (Option String) :=
  match texts with
  | [] => .ok none
  | texts =>
    match Pattern.read? .extended pattern with
    | none => .error .badPattern
    | some p =>
      match texts.findSome? (Pattern.search p) with
      | none => .ok none
      | some m => if p.groupCount = 0 then .error .outOfRange else .ok (m.groups.lookup 1)

end Bench

end BrilKit
