import BrilKit.Dominance.Listing
import BrilKit.Listing.Dot
import BrilKit.Llvm.Emit
import BrilKit.Pass
import BrilKit.Report.Normalize
import BrilKit.Text.Parser

/-!
# Tools of the command line

A tool reads a text and writes a text. Most read a program as JSON; what they write is a program
again, or a listing.
-/

namespace BrilKit

inductive Tool where
  | parse
  | print
  | listBlocks
  | listNumbered
  /-- List the numbered blocks of all functions with their edges. -/
  | listGraph
  | listLabelled (style : FlowGraph.Style)
  | draw
  | analyse
  | listDominance
  /-- Tell whether a program is in single-assignment form. -/
  | checkSsa
  | numberLocal
  | dropDead
  /-- Inference of types, with an option to check them. -/
  | inferTypes
  | normalize
  | emit
  /-- Run passes; `closed` tells whether the JSON ends with a line end. -/
  | transform (passes : List Pass) (closed : Bool)

namespace Tool

/-- What a tool is given: its arguments, its input, and the files at hand. -/
structure Setting where
  args : List String := []
  input : String := ""
  files : List (String × String) := []

def Setting.program (s : Setting) : Outcome Program := Program.ofJson s.input

def Setting.has (s : Setting) (option : String) : Bool := s.args.contains option

def analysisNamed (name : String) : Outcome (Program → Outcome String) :=
  match name with
  | "defined" => .ok (Analysis.defined.report showNames)
  | "live" => .ok (Analysis.live.report showNames)
  | "cprop" => .ok (Analysis.constants.report showTable)
  | _ => .error (.missing name)

def dropMode (args : List String) : Outcome Pass :=
  match args.head? with
  | none => .ok .dropUnreadAll
  | some "tdce" => .ok .dropUnreadAll
  | some "tdcep" => .ok .dropUnread
  | some "dkp" => .ok .dropKilled
  | some "tdce+" => .ok .clean
  | some other => .error (.missing other)

def viewNamed : Option String → Dominators.View
  | some "front" => .frontiers
  | some "tree" => .tree
  | _ => .dominators

/-- The program to emit and the name of its source: the input, or the file named. -/
def Setting.source (s : Setting) : Outcome (String × Program) :=
  match s.args.head? with
  | none => do return ("stdin", ← s.program)
  | some path =>
    match s.files.lookup path with
    | some text => do return (path, ← Program.ofJson text)
    | none => .error (.noFile (Quoted.quote path))

def run (t : Tool) (s : Setting) : Outcome String :=
  match t with
  | .parse => do return (← Program.parse (s.has "-p") s.input).toJson ++ "\n"
  | .print => do (← s.program).render
  | .listBlocks => do Listing.firstFunction (← s.program)
  | .listNumbered => do Listing.plain (← s.program)
  | .listGraph => do
    Listing.graphs (fun f => do FlowGraph.ofBody .full (← f.body)) false (← s.program)
  | .listLabelled style => do
    Listing.graphs (Func.labelledGraph style false) true (← s.program)
  | .draw => do Listing.dot (s.has "-v") (← s.program)
  | .analyse => do
    let d ← Json.read s.input
    let report ← analysisNamed (← itemAt s.args 0)
    report (← Program.ofDatum d)
  | .listDominance => do Dominators.list (viewNamed s.args.head?) (← s.program)
  | .checkSsa => do
    return if ← Ssa.allSingle (← (← s.program).funcs) then "yes\n" else "no\n"
  | .numberLocal => do
    let pass := Pass.numberLocal ⟨s.has "-p", s.has "-c", s.has "-f"⟩
    return (← pass.run (← s.program)).toJson
  | .dropDead => do
    let pass ← dropMode s.args
    return (← pass.run (← s.program)).toJson
  | .inferTypes => do return (← (Pass.inferTypes (s.has "-t")).run (← s.program)).toJson
  | .normalize => do return (← Report.normalize s.input).text
  | .emit => do
    let (name, p) ← s.source
    Llvm.emitWhole name p
  | .transform passes closed => do
    let p ← Pass.runAll passes (← s.program)
    return p.toJson ++ if closed then "\n" else ""

end Tool

end BrilKit
