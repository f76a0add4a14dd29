import BrilKit.Bench.Glob
import BrilKit.Bench.Options
import BrilKit.Bench.Pipeline
import BrilKit.Data.Toml
import BrilKit.Report.Csv

/-!
# The benchmark runner

Each benchmark is sent through the pipelines of several runs. The table of results has a line for
each benchmark and run, with the figure that the run's output shows.
-/

namespace BrilKit

namespace Bench

/-- A configuration: settings by their names. -/
structure Config where
  fields : List (String × Datum)

def Config.fetch (c : Config) (key : String) : Outcome Datum :=
  match c.fields.lookup key with
  | some d => .ok d
  | none => .error (.noConfigKey key)

def textsOf : Datum → Outcome (List String)
  | .list xs => xs.mapM fun d =>
    match d with
    | .str s => .ok s
    | _ => .error .noOperation
  | .str s => .ok (s.toList.map String.singleton)
  | .record fields => .ok (fields.map Prod.fst)
  | _ => .error .kind

/-- A run: its name and the commands of its pipeline. -/
structure Variant where
  name : String
  pipeline : Datum

def Config.variants (c : Config) : Outcome (List Variant) := do
  match ← c.fetch "runs" with
  | .record runs =>
    runs.mapM fun (name, d) =>
      match d with
      | .record fields => do return ⟨name, ← Config.fetch ⟨fields⟩ "pipeline"⟩
      | _ => .error .kind
  | _ => .error .noOperation

inductive Verdict where
  | figure (text : String)
  | timeout
  | incorrect
  | missing
deriving Repr, DecidableEq

def Verdict.text : Verdict → String
  | .figure text => text
  | .timeout => "timeout"
  | .incorrect => "incorrect"
  | .missing => "missing"

/-- What a run came to, by what it wrote (nothing if it took too long), by what the first run
wrote, and by the figure it shows. -/
def judge (written : Option Streams) (first : Option String) (found : Option String) : Verdict :=
  match written with
  | none => .timeout
  | some s =>
    if first.any fun f => s.output != f then .incorrect
    else match found with
      | none => .missing
      | some t => if t = "" then .missing else .figure t

def settled : Outcome Streams → Outcome (Option Streams)
  | .ok s => .ok (some s)
  | .error (.timedOut _ _) => .ok none
  | .error f => .error f

/-- The lines of the table for a benchmark, one for each run, given what the first run wrote. -/
def lines (c : Config) (limit : Limit) (files : Shell.Files) (path : String) :
    Option String → List Variant → Outcome (List String)
  | _, [] => .ok []
  | first, v :: vs => do
    let text ← (match files.lookup path with
      | some text => .ok text
      | none => .error (.noFile (Quoted.quote path)))
    let written ← (do settled (runBenchmark limit files text (← textsOf v.pipeline)))
    let output := (written.map Streams.output).getD ""
    let errors := (written.map Streams.errors).getD ""
    let pattern ← (match ← c.fetch "extract" with
      | .str s => .ok s
      | _ => .error .kind)
    let found ← figure pattern [output, errors]
    let line := Csv.record [Glob.stem path, v.name, (judge written first found).text]
    return line :: (← lines c limit files path (some (first.getD output)) vs)

/-- The benchmarks to run: those of the command line or, failing that, those that the
configuration's file pattern selects. -/
def benchmarks (c : Config) (files : Shell.Files) (o : Options) : Outcome (List String) :=
  if !o.files.isEmpty then .ok o.files
  else match c.fields.lookup "benchmarks" with
    | some (.str pattern) => .ok (Glob.select pattern (files.map Prod.fst))
    | some _ => .error .kind
    | none => .ok []

def plainPath (path : String) : String := "/".intercalate (Glob.parts path)

def run (files : Shell.Files) (args : List String) : Outcome String := do
  let o ← Options.read (fun path => files.any fun f => f.1 == plainPath path) args
  let config ← Toml.read ((files.lookup (plainPath o.config)).getD "")
  let c : Config := ⟨config⟩
  let paths ← benchmarks c files o
  Outcome.guard (o.jobs.all fun n => 0 < n) .noWorkers
  let limit := ((c.fields.lookup "timeout").map Limit.ofDatum).getD Limit.standard
  let variants ← if paths.isEmpty then .ok [] else c.variants
  let body ← paths.mapM fun path => lines c limit files (plainPath path) none variants
  return Csv.record ["benchmark", "run", "result"] ++ String.join (body.map String.join)

end Bench

end BrilKit
