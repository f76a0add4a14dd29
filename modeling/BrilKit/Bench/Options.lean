import BrilKit.Text.Numeral

/-!
# The command line of the benchmark runner

The arguments are the path of a configuration and the paths of benchmarks. Options may stand
anywhere in front of `--`; the last one of a kind counts.
-/

namespace BrilKit

namespace Bench

structure Written where
  jobs : Option String := none
  plot : Bool := false
  paths : List String := []
deriving Repr, DecidableEq

structure Options where
  jobs : Option Int := none
  config : String
  files : List String := []
deriving Repr, DecidableEq

/-- The letters of an option group: `p` stands on its own, and `j` takes the rest of the group or,
if there is none, the next argument. Tells whether the next argument was used. -/
def letters (w : Written) (next : Option String) : List Char → Outcome (Written × Bool)
  | [] => .ok (w, false)
  | 'p' :: cs => letters { w with plot := true } next cs
  | ['j'] =>
    match next with
    | some v => .ok ({ w with jobs := some v }, true)
    | none => .error .missingValue
  | 'j' :: cs => .ok ({ w with jobs := some (String.ofList cs) }, false)
  | _ => .error .unknownOption

def collect : List String → Written → Outcome Written
  | [], w => .ok w
  | a :: rest, w =>
    match a.toList with
    | ['-', '-'] => .ok { w with paths := w.paths ++ rest }
    | '-' :: '-' :: cs =>
      let (name, value) := cs.span fun c => c ≠ '='
      match String.ofList name, value, rest with
      | "plot", [], rest => collect rest { w with plot := true }
      | "plot", _, _ => .error .missingValue
      | "jobs", '=' :: v, rest => collect rest { w with jobs := some (String.ofList v) }
      | "jobs", _, v :: rest => collect rest { w with jobs := some v }
      | "jobs", _, [] => .error .missingValue
      | _, _, _ => .error .unknownOption
    | '-' :: c :: cs =>
      match letters w rest.head? (c :: cs), rest with
      | .error e, _ => .error e
      | .ok (w, true), _ :: rest => collect rest w
      | .ok (w, _), rest => collect rest w
    | _ => collect rest { w with paths := w.paths ++ [a] }

/-- What a command line asks for, where `exists_` tells which paths there are. -/
def Options.read (exists_ : String → Bool) (args : List String) : Outcome Options := do
  let w ← collect args {}
  let jobs ← (match w.jobs with
    | none => .ok none
    | some s =>
      match Numeral.read? s with
      | some n => .ok (some n)
      | none => .error .badParameter)
  match w.paths with
  | [] => .error .missingParameter
  | config :: files =>
    if (config :: files).all exists_ then return { jobs, config, files } else .error .badParameter

end Bench

end BrilKit
