import BrilKit.Pattern.Basic

/-!
# Reading patterns

Two ways to write patterns. In the extended one parentheses, `+`, `?` and `|` are operators and a
backslash takes this meaning away; in the basic one it is the other way round. Classes such as `\d`
stand for sets.
-/

namespace BrilKit

namespace Pattern

inductive Dialect where
  | extended
  | basic
deriving Repr, DecidableEq

inductive Piece where
  | set (s : CharSet)
  | start
  | stop
  | open_
  | close
  | bar
  | star
  | plus
  | question
deriving Repr, DecidableEq

def classOf (c : Char) : Option CharSet :=
  let digits : List (Char × Char) := [('0', '9')]
  let word : List (Char × Char) := [('a', 'z'), ('A', 'Z'), ('0', '9'), ('_', '_')]
  let blank : List (Char × Char) := [(' ', ' '), ('\t', '\r')]
  match c with
  | 'd' => some ⟨false, digits⟩
  | 'D' => some ⟨true, digits⟩
  | 'w' => some ⟨false, word⟩
  | 'W' => some ⟨true, word⟩
  | 's' => some ⟨false, blank⟩
  | 'S' => some ⟨true, blank⟩
  | _ => none

def escaped (c : Char) : Char :=
  match c with
  | 'n' => '\n'
  | 't' => '\t'
  | 'r' => '\r'
  | c => c

def single (c : Char) : CharSet := ⟨false, [(c, c)]⟩

def setMembers : Nat → Bool → List Char → Option (List (Char × Char) × List Char)
  | 0, _, _ => none
  | _ + 1, _, [] => none
  | fuel + 1, first, c :: cs =>
    if c = ']' && !first then some ([], cs)
    else
      let (ranges, cs) : List (Char × Char) × List Char :=
        match c, cs with
        | '\\', e :: rest =>
          match classOf e with
          | some s => (s.ranges, rest)
          | none => ([(escaped e, escaped e)], rest)
        | a, '-' :: b :: rest => if b = ']' then ([(a, a)], '-' :: b :: rest) else ([(a, b)], rest)
        | a, rest => ([(a, a)], rest)
      (setMembers fuel false cs).map fun (more, rest) => (ranges ++ more, rest)

def readSet (cs : List Char) : Option (CharSet × List Char) :=
  let (negated, cs) :=
    match cs with
    | '^' :: rest => (true, rest)
    | rest => (false, rest)
  (setMembers (cs.length + 1) true cs).map fun (ranges, rest) => (⟨negated, ranges⟩, rest)

def operatorOf : Char → Option Piece
  | '(' => some .open_
  | ')' => some .close
  | '|' => some .bar
  | '+' => some .plus
  | '?' => some .question
  | _ => none

def escapedPiece (dialect : Dialect) (c : Char) : Piece :=
  match dialect, operatorOf c, classOf c with
  | .basic, some p, _ => p
  | _, _, some s => .set s
  | _, _, none => .set (single (escaped c))

def plainPiece (dialect : Dialect) (c : Char) : Piece :=
  match c with
  | '.' => .set ⟨true, [('\n', '\n')]⟩
  | '^' => .start
  | '$' => .stop
  | '*' => .star
  | c =>
    match dialect, operatorOf c with
    | .extended, some p => p
    | _, _ => .set (single c)

def pieces (dialect : Dialect) : Nat → List Char → Option (List Piece)
  | 0, _ => none
  | _ + 1, [] => some []
  | _ + 1, ['\\'] => none
  | fuel + 1, '\\' :: c :: cs => (pieces dialect fuel cs).map (escapedPiece dialect c :: ·)
  | fuel + 1, '[' :: cs => do
    let (s, rest) ← readSet cs
    return .set s :: (← pieces dialect fuel rest)
  | fuel + 1, c :: cs => (pieces dialect fuel cs).map (plainPiece dialect c :: ·)

def repetitions : Pattern → List Piece → Pattern × List Piece
  | p, .star :: ps => repetitions (.many p) ps
  | p, .plus :: ps => repetitions (some_ p) ps
  | p, .question :: ps => repetitions (optional p) ps
  | p, ps => (p, ps)

/-- Alternatives up to a closing parenthesis or the end, with the number of the next group. -/
def alternatives : Nat → Nat → List Piece → Pattern → Option (Pattern × Nat × List Piece)
  | 0, _, _, _ => none
  | _ + 1, n, [], acc => some (acc, n, [])
  | _ + 1, n, .close :: ps, acc => some (acc, n, .close :: ps)
  | fuel + 1, n, .bar :: ps, acc => do
    let (p, n, ps) ← alternatives fuel n ps .empty
    return (.alt acc p, n, ps)
  | fuel + 1, n, .open_ :: ps, acc => do
    let (p, m, ps) ← alternatives fuel (n + 1) ps .empty
    match ps with
    | .close :: ps =>
      let (item, ps) := repetitions (.group n p) ps
      alternatives fuel m ps (.seq acc item)
    | _ => none
  | fuel + 1, n, piece :: ps, acc =>
    let item? : Option Pattern :=
      match piece with
      | .set s => some (.one s)
      | .start => some .start
      | .stop => some .stop
      | _ => none
    match item? with
    | none => none
    | some item =>
      let (item, ps) := repetitions item ps
      alternatives fuel n ps (.seq acc item)

def read? (dialect : Dialect) (text : String) : Option Pattern := do
  let ps ← pieces dialect (text.length + 1) text.toList
  let (p, _, rest) ← alternatives (2 * ps.length + 2) 1 ps .empty
  if rest.isEmpty then some p else none

end Pattern

end BrilKit
