import BrilKit.Bench.Shell.Filters
import BrilKit.Pattern.Reader

/-!
# Editing lines

A script of editing commands is run on each line of a text: substitution, deletion, printing, and
quitting, on all lines or on those that an address picks.
-/

namespace BrilKit

namespace Shell

namespace Edit

inductive Address where
  | number (n : Nat)
  | last
  | matching (p : Pattern)

inductive Action where
  /-- Replace matches: the first one, or all of them; print the line if something was replaced. -/
  | substitute (p : Pattern) (replacement : List Char) (all print : Bool)
  | exchange (source target : List Char)
  | delete
  | print
  | number
  | quit

structure Command where
  first : Option Address := none
  last : Option Address := none
  negated : Bool := false
  action : Action

/-- The text up to a delimiter, and what is behind it. A delimiter behind a backslash is text. -/
def upTo (delimiter : Char) : List Char → Option (List Char × List Char)
  | [] => none
  | '\\' :: c :: cs =>
    (upTo delimiter cs).map fun (t, rest) =>
      (if c = delimiter then c :: t else '\\' :: c :: t, rest)
  | c :: cs =>
    if c = delimiter then some ([], cs) else (upTo delimiter cs).map fun (t, rest) => (c :: t, rest)

def address (d : Pattern.Dialect) : List Char → Option (Address × List Char)
  | '$' :: cs => some (.last, cs)
  | '/' :: cs => do
    let (t, rest) ← upTo '/' cs
    return (.matching (← Pattern.read? d (String.ofList t)), rest)
  | cs =>
    let (digits, rest) := cs.span Char.isDigit
    if digits.isEmpty then none else some (.number (Decimal.digitsValue digits), rest)

def action (d : Pattern.Dialect) : List Char → Option (Action × List Char)
  | 's' :: delimiter :: cs => do
    let (p, rest) ← upTo delimiter cs
    let (r, rest) ← upTo delimiter rest
    let (flags, rest) := rest.span Char.isAlphanum
    return (.substitute (← Pattern.read? d (String.ofList p)) r (flags.contains 'g')
      (flags.contains 'p'), rest)
  | 'y' :: delimiter :: cs => do
    let (a, rest) ← upTo delimiter cs
    let (b, rest) ← upTo delimiter rest
    return (.exchange a b, rest)
  | 'd' :: cs => some (.delete, cs)
  | 'p' :: cs => some (.print, cs)
  | '=' :: cs => some (.number, cs)
  | 'q' :: cs => some (.quit, cs)
  | _ => none

def isGap (c : Char) : Bool := c = ' ' || c = ';' || c = '\n' || c = '\t'

def commands (d : Pattern.Dialect) : Nat → List Char → Option (List Command)
  | 0, _ => none
  | fuel + 1, cs =>
    match cs.dropWhile isGap with
    | [] => some []
    | cs => do
      let (first, cs) := match address d cs with
        | some (a, rest) => (some a, rest)
        | none => (none, cs)
      let (last, cs) := match cs with
        | ',' :: more =>
          match address d more with
          | some (a, rest) => (some a, rest)
          | none => (none, cs)
        | _ => (none, cs)
      let (negated, cs) := match cs with
        | '!' :: more => (true, more)
        | _ => (false, cs)
      let (act, cs) ← action d (cs.dropWhile fun c => c = ' ')
      return { first, last, negated, action := act } :: (← commands d fuel cs)

def fillIn (m : Pattern.Match) : List Char → List Char
  | '\\' :: 'n' :: cs => '\n' :: fillIn m cs
  | '\\' :: c :: cs =>
    if c.isDigit then
      let n := c.toNat - '0'.toNat
      let text := if n = 0 then m.whole else ((m.groups.lookup n).getD "").toList
      text ++ fillIn m cs
    else c :: fillIn m cs
  | '&' :: cs => m.whole ++ fillIn m cs
  | c :: cs => c :: fillIn m cs
  | [] => []

/-- Replace matches from a place on. An empty match right behind another one does not count. -/
def replaceFrom (p : Pattern) (r : List Char) (all : Bool) :
    Nat → Bool → Bool → List Char → List Char × Bool
  | 0, _, _, cs => (cs, false)
  | fuel + 1, atStart, behindMatch, cs =>
    match Pattern.searchFrom p [] atStart cs with
    | none => (cs, false)
    | some m =>
      if m.whole.isEmpty && m.before.isEmpty && behindMatch then
        match cs with
        | [] => ([], false)
        | c :: cs =>
          let (out, found) := replaceFrom p r all fuel false false cs
          (c :: out, found)
      else
        let here := m.before ++ fillIn m r
        if !all then (here ++ m.behind, true)
        else if m.whole.isEmpty then
          match m.behind with
          | [] => (here, true)
          | c :: cs => (here ++ c :: (replaceFrom p r all fuel false false cs).1, true)
        else (here ++ (replaceFrom p r all fuel false true m.behind).1, true)

def replace (p : Pattern) (r : List Char) (all : Bool) (l : String) : String × Bool :=
  let (out, found) := replaceFrom p r all (2 * l.length + 2) true false l.toList
  (String.ofList out, found)

def Address.picks (n : Nat) (isLast : Bool) (l : String) : Address → Bool
  | .number m => n == m
  | .last => isLast
  | .matching p => (Pattern.search p l).isSome

/-- The state of a run: the line, what has been written, and whether to go on. -/
structure State where
  line : String
  out : List String := []
  /-- Whether the latest thing written is a line number, which always has an end. -/
  numbered : Bool := false
  deleted : Bool := false
  quit : Bool := false
  /-- The commands whose range of lines has begun, by position. -/
  active : List Nat := []

def applies (c : Command) (k n : Nat) (isLast : Bool) (s : State) : Bool × List Nat :=
  match c.first, c.last with
  | none, _ => (!c.negated, s.active)
  | some a, none => (a.picks n isLast s.line != c.negated, s.active)
  | some a, some b =>
    if s.active.contains k then
      (!c.negated, if b.picks n isLast s.line then s.active.erase k else s.active)
    else if a.picks n isLast s.line then
      let single := match b with
        | .number m => decide (m ≤ n)
        | _ => false
      (!c.negated, if single then s.active else k :: s.active)
    else (c.negated, s.active)

def perform (n : Nat) (s : State) : Action → State
  | .substitute p r all print =>
    let (line, found) := replace p r all s.line
    if found && print then { s with line, out := s.out ++ [line], numbered := false }
    else { s with line }
  | .exchange a b => { s with line := s.line.map (Shell.exchange a b) }
  | .delete => { s with deleted := true }
  | .print => { s with out := s.out ++ [s.line], numbered := false }
  | .number => { s with out := s.out ++ [toString n], numbered := true }
  | .quit => { s with quit := true }

def runLine (cs : List Command) (n : Nat) (isLast : Bool) (s : State) : State :=
  cs.zipIdx.foldl (fun s (c, k) =>
    if s.deleted || s.quit then s
    else
      let (yes, active) := applies c k n isLast s
      let s := { s with active }
      if yes then perform n s c.action else s) s

/-- Run the commands on numbered lines; `silent` keeps lines from being written on their own. What
is written last for a last line that is not `ended` has no end either. -/
def runLines (cs : List Command) (silent ended : Bool) : Nat → List Nat → List String → String
  | _, _, [] => ""
  | n, active, l :: ls =>
    let s := runLine cs n ls.isEmpty { line := l, active }
    let hidden := silent || s.deleted
    let text := unlines (s.out ++ if hidden then [] else [s.line])
    if s.quit then text
    else if ls.isEmpty && !ended && !(hidden && s.numbered) then String.ofList text.toList.dropLast
    else text ++ runLines cs silent ended (n + 1) s.active ls

def run (options : List Char) (script input : String) : Option String := do
  let d := if options.contains 'E' || options.contains 'r' then Pattern.Dialect.extended else .basic
  let cs ← commands d (script.length + 2) script.toList
  let ended := input.toList.getLast? == some '\n'
  return runLines cs (options.contains 'n') ended 1 [] (linesOf input)

end Edit

end Shell

end BrilKit
