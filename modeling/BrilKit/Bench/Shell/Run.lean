import BrilKit.Bench.Shell.Syntax
import BrilKit.Bench.Shell.Records

/-!
# Running scripts

A script reads an input text and writes an output and an error text. Time is counted in
milliseconds: only `sleep` takes time, and a command that reads its input waits for the end of it.
-/

namespace BrilKit

namespace Shell

abbrev Files := List (String × String)

structure State where
  input : String := ""
  inputEnd : Nat := 0
  output : String := ""
  errors : String := ""
  clock : Nat := 0
  status : Nat := 0
  left : Bool := false
  files : Files := []
deriving Repr

structure Effect where
  output : String := ""
  errors : String := ""
  status : Nat := 0
  reads : Bool := false
  pause : Nat := 0
  leaves : Bool := false
deriving Repr

def contentOf (files : Files) (path : String) : Option String :=
  if path = "/dev/null" then some "" else files.lookup path

/-- The contents of the named files, or the input if none is named; a file that is not there is
reported. -/
def gather (command : String) (files : Files) (input : String) (paths : List String) : Effect :=
  if paths.isEmpty then { output := input, reads := true }
  else
    paths.foldl (fun e path =>
      if path = "-" then { e with output := e.output ++ input, reads := true }
      else match contentOf files path with
        | some text => { e with output := e.output ++ text }
        | none =>
          { e with
            errors := e.errors ++ command ++ ": " ++ path ++ ": No such file or directory\n"
            status := 1 }) {}

def Effect.through (f : String → String) (e : Effect) : Effect := { e with output := f e.output }

def countFiles (files : Files) (options : List Char) (input : String) (paths : List String) :
    Effect :=
  match paths with
  | [] => { output := count options input, reads := true }
  | paths =>
    paths.foldl (fun e path =>
      match contentOf files path with
      | some text =>
        let line := String.ofList (count options text).toList.dropLast
        { e with output := e.output ++ line ++ " " ++ path ++ "\n" }
      | none =>
        { e with
          errors := e.errors ++ "wc: " ++ path ++ ": No such file or directory\n"
          status := 1 }) {}

def editArguments : List String → List Char → List String → List String →
    List Char × List String × List String
  | [], options, scripts, others => (options, scripts, others)
  | "-e" :: s :: args, options, scripts, others =>
    editArguments args options (scripts ++ [s]) others
  | a :: args, options, scripts, others =>
    match a.toList with
    | '-' :: c :: cs => editArguments args (options ++ c :: cs) scripts others
    | _ => editArguments args options scripts (others ++ [a])

def recordArguments : List String → List (String × String) → List String →
    List (String × String) × List String
  | [], settings, others => (settings, others)
  | "-v" :: s :: args, settings, others =>
    match s.splitOn "=" with
    | x :: rest => recordArguments args (settings ++ [(x, "=".intercalate rest)]) others
    | [] => recordArguments args settings others
  | "-F" :: s :: args, settings, others => recordArguments args (settings ++ [("FS", s)]) others
  | a :: args, settings, others =>
    match a.toList with
    | '-' :: 'F' :: cs => recordArguments args (settings ++ [("FS", String.ofList cs)]) others
    | _ => recordArguments args settings (others ++ [a])

def command (files : Files) (input name : String) (args : List String) : Effect :=
  let (options, others) := splitOptions args
  match name with
  | "cat" => gather "cat" files input others
  | "echo" => { output := echo args }
  | "true" => {}
  | ":" => {}
  | "false" => { status := 1 }
  | "exit" => { status := ((args.head?.bind String.toNat?).getD 0), leaves := true }
  | "sleep" => { pause := args.foldl (fun n a => n + milliseconds a) 0 }
  | "wc" => countFiles files options input others
  | "tr" => { output := changeChars options others input, reads := true }
  | "sort" => (gather "sort" files input others).through (sortLines options)
  | "sed" =>
    let (options, scripts, others) := editArguments args [] [] []
    let (script, paths) :=
      if scripts.isEmpty then (others.headD "", others.drop 1)
      else ("\n".intercalate scripts, others)
    let e := gather "sed" files input paths
    match Edit.run options script e.output with
    | some output => { e with output }
    | none => { errors := "sed: -e expression #1, char 0: unknown command\n", status := 1 }
  | "awk" =>
    let (settings, others) := recordArguments args [] []
    let e := gather "awk" files input (others.drop 1)
    match Records.run settings (others.headD "") e.output with
    | some output => { e with output }
    | none => { errors := "awk: syntax error\n", status := 2 }
  | name => { errors := "/bin/sh: 1: " ++ name ++ ": not found\n", status := 127 }

inductive Target where
  | output
  | errors
  | file (path : String)

/-- Where the streams go and what is read, as redirections ask, from left to right. -/
structure Wiring where
  output : Target := .output
  errors : Target := .errors
  source : Option String := none
  /-- The files that are emptied before anything is written. -/
  emptied : List String := []

def Wiring.add (w : Wiring) : Redirect → Wiring
  | .toFile n path append =>
    let w := if append then w else { w with emptied := path :: w.emptied }
    if n = 2 then { w with errors := .file path } else { w with output := .file path }
  | .toStream n m =>
    let target := if m = 2 then w.errors else w.output
    if n = 2 then { w with errors := target } else { w with output := target }
  | .fromFile path => { w with source := some path }

def addToFile (files : Files) (path text : String) : Files :=
  if path = "/dev/null" then files
  else (path, (files.lookup path).getD "" ++ text) :: files.filter fun f => f.1 != path

def State.write (s : State) (text : String) : Target → State
  | .output => { s with output := s.output ++ text }
  | .errors => { s with errors := s.errors ++ text }
  | .file path => if text = "" then s else { s with files := addToFile s.files path text }

def runCommand (words : List String) (redirects : List Redirect) (s : State) : State :=
  let w := redirects.foldl Wiring.add {}
  let missing := match w.source with
    | some path => (contentOf s.files path).isNone
    | none => false
  if missing then
    let complaint := "/bin/sh: 1: cannot open " ++ w.source.getD "" ++ ": No such file\n"
    { s with errors := s.errors ++ complaint, status := 2 }
  else
    let cleared := w.emptied.foldl (fun fs path =>
      if path = "/dev/null" then fs else (path, "") :: fs.filter fun f => f.1 != path) s.files
    let s := { s with files := cleared }
    let input := match w.source with
      | some path => (contentOf s.files path).getD ""
      | none => s.input
    match words with
    | [] => { s with status := 0 }
    | name :: args =>
      let e := command s.files input name args
      let waits := e.reads && w.source.isNone
      let s := (s.write e.output w.output).write e.errors w.errors
      { s with
        input := if waits then "" else s.input
        clock := (if waits then max s.clock s.inputEnd else s.clock) + e.pause
        status := e.status
        left := e.leaves }

def run : Script → State → State
  | .skip, s => s
  | .command words redirects, s => runCommand words redirects s
  | .nested a, s => { run a s with left := false }
  | .pipe a b, s =>
    let first := run a { s with output := "", errors := "" }
    let second := run b
      { s with input := first.output, inputEnd := first.clock, output := "", errors := "",
               files := first.files }
    { second with
      input := first.input
      inputEnd := s.inputEnd
      output := s.output ++ second.output
      errors := s.errors ++ first.errors ++ second.errors
      clock := max first.clock second.clock
      left := false }
  | .andThen a b, s =>
    let s := run a s
    if s.left || s.status != 0 then s else run b s
  | .orElse a b, s =>
    let s := run a s
    if s.left || s.status == 0 then s else run b s
  | .seq a b, s =>
    let s := run a s
    if s.left then s else run b s

def State.reject (s : State) (reason : String) : State :=
  { s with errors := s.errors ++ "/bin/sh: 1: Syntax error: " ++ reason ++ "\n", status := 2 }

/-- Run the script that a text denotes; a text that denotes none is reported. -/
def runText (text : String) (s : State) : State :=
  match tokensOf text with
  | none => s.reject "Unterminated quoted string"
  | some ts =>
    match ofTokens? ts with
    | none => s.reject "end of file unexpected"
    | some script => run script s

end Shell

end BrilKit
