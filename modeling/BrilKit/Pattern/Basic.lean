/-!
# Text patterns

Patterns with repetition, alternatives and groups. A match is found by trying all ways in order of
preference: the leftmost start, and at each repetition as much as possible.
-/

namespace BrilKit

/-- A set of characters: single ones and ranges. -/
structure CharSet where
  negated : Bool := false
  ranges : List (Char × Char) := []
deriving Repr, DecidableEq

def CharSet.has (s : CharSet) (c : Char) : Bool :=
  (s.ranges.any fun (a, b) => decide (a ≤ c ∧ c ≤ b)) != s.negated

inductive Pattern where
  /-- Matches nothing but the empty text. -/
  | empty
  | one (s : CharSet)
  | start
  /-- The end of the text, or the place before a line end that ends it. -/
  | stop
  | seq (p q : Pattern)
  /-- One pattern or, failing that, another. -/
  | alt (p q : Pattern)
  | many (p : Pattern)
  | group (n : Nat) (p : Pattern)
deriving Repr, DecidableEq, Inhabited

namespace Pattern

/-- Where a match stands: what is left of the text, and the groups found so far. -/
structure Place where
  rest : List Char
  atStart : Bool
  groups : List (Nat × String) := []
deriving Repr

def between (a b : Place) : List Char := a.rest.take (a.rest.length - b.rest.length)

def repeated (step : Place → List Place) : Nat → Place → List Place
  | 0, p => [p]
  | fuel + 1, p =>
    ((step p).filter fun q => decide (q.rest.length < p.rest.length)).flatMap (repeated step fuel)
      ++ [p]

/-- All places where a match that begins at a place can end, in order of preference. -/
def ends : Pattern → Place → List Place
  | .empty, p => [p]
  | .one s, p =>
    match p.rest with
    | c :: cs => if s.has c then [{ p with rest := cs, atStart := false }] else []
    | [] => []
  | .start, p => if p.atStart then [p] else []
  | .stop, p => if p.rest = [] ∨ p.rest = ['\n'] then [p] else []
  | .seq a b, p => (ends a p).flatMap (ends b)
  | .alt a b, p => ends a p ++ ends b p
  | .many a, p => repeated (ends a) p.rest.length p
  | .group n a, p =>
    (ends a p).map fun q =>
      { q with groups := (n, String.ofList (between p q)) :: q.groups.filter fun g => g.1 != n }

structure Match where
  before : List Char
  whole : List Char
  behind : List Char
  groups : List (Nat × String)
deriving Repr

def searchFrom (p : Pattern) : List Char → Bool → List Char → Option Match
  | before, atStart, cs =>
    match ends p { rest := cs, atStart } with
    | q :: _ =>
      some { before := before.reverse, whole := between ⟨cs, atStart, []⟩ q, behind := q.rest,
             groups := q.groups }
    | [] =>
      match cs with
      | [] => none
      | c :: cs => searchFrom p (c :: before) false cs

def search (p : Pattern) (text : String) : Option Match := searchFrom p [] true text.toList

def groupCount : Pattern → Nat
  | .seq a b => groupCount a + groupCount b
  | .alt a b => groupCount a + groupCount b
  | .many a => groupCount a
  | .group _ a => groupCount a + 1
  | _ => 0

def char (c : Char) : Pattern := .one ⟨false, [(c, c)]⟩

def any : Pattern := .one ⟨true, [('\n', '\n')]⟩

def literal (s : String) : Pattern := s.toList.foldr (fun c p => .seq (char c) p) .empty

def some_ (p : Pattern) : Pattern := .seq p (.many p)

def optional (p : Pattern) : Pattern := .alt p .empty

end Pattern

end BrilKit
