import BrilKit.Report.Normalize

/-!
# Speedups of ways to run a program

Measured times of benchmarks are grouped by the way in which the program was run, which is told by
the command. Speedups are relative to the reference interpreter; the mean of speedups is harmonic.
-/

namespace BrilKit

namespace Report

inductive Mode where
  | brili
  | brilirs
  | briliftJit
  | briliftAot
deriving Repr, DecidableEq

namespace Mode

def all : List Mode := [.brili, .brilirs, .briliftJit, .briliftAot]

def name : Mode → String
  | .brili => "brili"
  | .brilirs => "brilirs"
  | .briliftJit => "brilift-jit"
  | .briliftAot => "brilift-aot"

def isWord (c : Char) : Bool := c = '_' || Letters.isAlnum c

def after? : List Char → List Char → Option (List Char)
  | [], cs => some cs
  | _ :: _, [] => none
  | p :: ps, c :: cs => if p = c then after? ps cs else none

/-- Whether a text occurs at the start of a word; with `whole`, also at the end of one. `inWord`
tells whether the character before was part of a word. -/
def occurs (part : List Char) (whole : Bool) : Bool → List Char → Bool
  | _, [] => part.isEmpty
  | inWord, c :: cs =>
    let here :=
      match after? part (c :: cs) with
      | some rest => !inWord && (!whole || !(rest.head?.any isWord))
      | none => false
    here || occurs part whole (isWord c) cs

/-- Whether a command runs a program of the working folder with arguments: the path has no further
slash before a blank. -/
def isLocal (command : List Char) : Bool :=
  match after? ['.', '/'] command with
  | none => false
  | some rest => ((rest.takeWhile fun c => c ≠ '/').drop 1).contains ' '

def fits (command : String) : Mode → Bool
  | .brili => occurs "brili".toList true false command.toList
  | .brilirs => occurs "brilirs".toList true false command.toList
  | .briliftJit => occurs "brilift -j".toList false false command.toList
  | .briliftAot => isLocal command.toList

def ofCommand (command : String) : Outcome Mode :=
  match all.find? (fits command) with
  | some m => .ok m
  | none => .error (.violated "unknown benchmark command")

end Mode

namespace Speedup

structure Sample where
  bench : String
  mode : Mode
  fields : List (String × Datum)

def Sample.fetch (s : Sample) (key : String) : Outcome Datum := .ofOption key (s.fields.lookup key)

def baseName (path : String) : String := ((path.splitOn "/").getLast?).getD ""

def benchOf (path : String) : Outcome String :=
  match (baseName path).splitOn "." with
  | bench :: _ :: _ => .ok bench
  | _ => .error .noExtension

def sampleOf (bench : String) : Datum → Outcome Sample
  | .record fields => do
    match ← Outcome.ofOption "command" (fields.lookup "command") with
    | .str command => return { bench, mode := ← Mode.ofCommand command, fields }
    | _ => .error .kind
  | _ => .error .kind

def samplesOf (file : String × Datum) : Outcome (List Sample) := do
  let bench ← benchOf file.1
  match file.2 with
  | .record fs =>
    match ← Outcome.ofOption "results" (fs.lookup "results") with
    | .list rs => rs.mapM (sampleOf bench)
    | _ => .error .kind
  | _ => .error .kind

/-- The mean time of the reference for each benchmark; of several the last one counts. Every
measurement must have a mean. -/
def references (samples : List Sample) : Outcome (Table String Datum) :=
  samples.foldlM (fun (t : Table String Datum) s => do
    let mean ← s.fetch "mean"
    return if s.mode = .brili then t.put s.bench mean else t) .empty

def speedup (base : Table String Datum) (s : Sample) : Outcome Float := do
  let reference ← Outcome.ofOption Mode.brili.name (base.get? s.bench)
  Arith.ratio reference (← s.fetch "mean")

def fieldText : Datum → String
  | .null => ""
  | d => d.text

def lineOf (s : Sample) (x : Float) : Outcome (String × String) := do
  let mean ← s.fetch "mean"
  let deviation ← s.fetch "stddev"
  return (Csv.record [s.bench, s.mode.name, fieldText mean, fieldText deviation, Decimal.ofFloat x],
    s.bench ++ " " ++ s.mode.name ++ " " ++ Decimal.twoPlaces x ++ "x\n")

def remarkOn (speedups : List (Mode × Float)) (m : Mode) : Outcome String := do
  match speedups.filterMap fun (n, x) => if n = m then some x else none with
  | [] => return ""
  | xs => return m.name ++ ": " ++ Decimal.twoPlaces (← Mean.harmonic xs) ++ "x\n"

end Speedup

def speedups (files : List (String × Datum)) : Outcome Output := do
  let samples := (← files.mapM Speedup.samplesOf).flatten
  let base ← Speedup.references samples
  let items ← samples.mapM fun s => do
    let x ← Speedup.speedup base s
    return ((s.mode, x), ← Speedup.lineOf s x)
  let totals ← Mode.all.mapM (Speedup.remarkOn (items.map Prod.fst))
  return { text := Csv.record ["bench", "mode", "mean", "stddev", "speedup"]
             ++ String.join (items.map fun i => i.2.1)
           remarks := String.join (items.map fun i => i.2.2) ++ String.join totals }

end Report

end BrilKit
