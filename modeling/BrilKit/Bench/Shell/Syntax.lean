/-!
# Commands as they are written

A script is a list of commands, joined by pipes, by conditions and in sequence. Words can be
quoted; variables are never set and stand for nothing. Output can be sent elsewhere.
-/

namespace BrilKit

namespace Shell

/-- Where input comes from or output goes to. -/
inductive Redirect where
  /-- Write a stream to a file, behind what is there if `append`. -/
  | toFile (stream : Nat) (path : String) (append : Bool)
  | toStream (stream target : Nat)
  | fromFile (path : String)
deriving Repr, DecidableEq

inductive Script where
  | skip
  /-- Run a command: its words and its redirections. -/
  | command (words : List String) (redirects : List Redirect)
  | nested (s : Script)
  | pipe (a b : Script)
  | andThen (a b : Script)
  | orElse (a b : Script)
  | seq (a b : Script)
deriving Repr, DecidableEq, Inhabited

inductive Sign where
  | semicolon
  | bar
  | both
  | either
  | open_
  | close
  /-- A redirection of a stream; its target is the next word. -/
  | write (stream : Nat)
  | append (stream : Nat)
  | duplicate (stream : Nat)
  | read
deriving Repr, DecidableEq

inductive Token where
  | word (s : String)
  | sign (s : Sign)
deriving Repr, DecidableEq

def isNameChar (c : Char) : Bool := c.isAlphanum || c = '_'

/-- What is behind a variable whose mark has been read; nothing if no name follows. -/
def skipVariable : List Char → Option (List Char)
  | '\x7b' :: cs => some ((cs.dropWhile fun c => c ≠ '\x7d').drop 1)
  | c :: cs =>
    if c.isDigit || c = '?' || c = '#' || c = '@' || c = '*' || c = '!' then some cs
    else if isNameChar c then some (cs.dropWhile isNameChar)
    else none
  | [] => none

/-- A word being read, the latest character first; nothing between words. -/
abbrev Partial := Option (List Char)

def flush (word : Partial) (rest : List Token) : List Token :=
  match word with
  | some cs => .word (String.ofList cs.reverse) :: rest
  | none => rest

def extend (word : Partial) (cs : List Char) : Partial := some (cs.reverse ++ word.getD [])

/-- A text between double quotes: the characters up to the closing one, and what is behind. -/
def doubleQuoted : Nat → List Char → Option (List Char × List Char)
  | 0, _ => none
  | _ + 1, [] => none
  | _ + 1, '"' :: cs => some ([], cs)
  | fuel + 1, '\\' :: c :: cs =>
    let kept := if c = '"' || c = '\\' || c = '$' || c.toNat = 96 then [c] else ['\\', c]
    (doubleQuoted fuel cs).map fun (more, rest) => (kept ++ more, rest)
  | fuel + 1, '$' :: cs =>
    match skipVariable cs with
    | some rest => doubleQuoted fuel rest
    | none => (doubleQuoted fuel cs).map fun (more, rest) => ('$' :: more, rest)
  | fuel + 1, c :: cs => (doubleQuoted fuel cs).map fun (more, rest) => (c :: more, rest)

def streamOf (word : Partial) (standard : Nat) : Partial × Nat :=
  match word with
  | some [c] => if c.isDigit then (none, c.toNat - '0'.toNat) else (word, standard)
  | _ => (word, standard)

def tokens : Nat → Partial → List Char → Option (List Token)
  | 0, _, _ => none
  | _ + 1, word, [] => some (flush word [])
  | fuel + 1, word, c :: cs =>
    let sign (s : Sign) (word : Partial) (rest : List Char) : Option (List Token) := do
      return flush word (.sign s :: (← tokens fuel none rest))
    match c, cs with
    | '\'', cs =>
      let (inside, rest) := cs.span fun d => d ≠ '\''
      if rest.isEmpty then none else tokens fuel (extend word inside) (rest.drop 1)
    | '"', cs =>
      match doubleQuoted (cs.length + 1) cs with
      | some (inside, rest) => tokens fuel (extend word inside) rest
      | none => none
    | '\\', d :: cs => tokens fuel (extend word [d]) cs
    | '$', cs =>
      match skipVariable cs with
      | some rest => tokens fuel word rest
      | none => tokens fuel (extend word ['$']) cs
    | ';', cs => sign .semicolon word cs
    | '\n', cs => sign .semicolon word cs
    | '|', '|' :: cs => sign .either word cs
    | '|', cs => sign .bar word cs
    | '&', '&' :: cs => sign .both word cs
    | '&', cs => sign .semicolon word cs
    | '(', cs => sign .open_ word cs
    | ')', cs => sign .close word cs
    | '>', '>' :: cs =>
      let (word, n) := streamOf word 1
      sign (.append n) word cs
    | '>', '&' :: cs =>
      let (word, n) := streamOf word 1
      sign (.duplicate n) word cs
    | '>', cs =>
      let (word, n) := streamOf word 1
      sign (.write n) word cs
    | '<', cs =>
      let (word, _) := streamOf word 0
      sign .read word cs
    | '#', cs =>
      match word with
      | some _ => tokens fuel (extend word ['#']) cs
      | none => tokens fuel none (cs.dropWhile fun d => d ≠ '\n')
    | c, cs =>
      if c = ' ' || c = '\t' then do return flush word (← tokens fuel none cs)
      else tokens fuel (extend word [c]) cs

def commandParts : List Token → Option (List String × List Redirect × List Token)
  | .sign (.write n) :: .word path :: ts => do
    let (ws, rs, ts) ← commandParts ts
    return (ws, .toFile n path false :: rs, ts)
  | .sign (.append n) :: .word path :: ts => do
    let (ws, rs, ts) ← commandParts ts
    return (ws, .toFile n path true :: rs, ts)
  | .sign (.duplicate n) :: .word target :: ts => do
    let m ← target.toNat?
    let (ws, rs, ts) ← commandParts ts
    return (ws, .toStream n m :: rs, ts)
  | .sign .read :: .word path :: ts => do
    let (ws, rs, ts) ← commandParts ts
    return (ws, .fromFile path :: rs, ts)
  | .sign (.write _) :: _ => none
  | .sign (.append _) :: _ => none
  | .sign (.duplicate _) :: _ => none
  | .sign .read :: _ => none
  | .word w :: ts => do
    let (ws, rs, ts) ← commandParts ts
    return (w :: ws, rs, ts)
  | ts => some ([], [], ts)

mutual

def sequence : Nat → List Token → Option (Script × List Token)
  | 0, _ => none
  | fuel + 1, ts => do
    let (a, ts) ← conditions fuel ts
    match ts with
    | .sign .semicolon :: .sign .close :: ts => return (a, .sign .close :: ts)
    | [.sign .semicolon] => return (a, [])
    | .sign .semicolon :: ts =>
      let (b, ts) ← sequence fuel ts
      return (.seq a b, ts)
    | ts => return (a, ts)

def conditions : Nat → List Token → Option (Script × List Token)
  | 0, _ => none
  | fuel + 1, ts => do
    let (a, ts) ← pipes fuel ts
    moreConditions fuel a ts

def moreConditions : Nat → Script → List Token → Option (Script × List Token)
  | 0, _, _ => none
  | fuel + 1, a, .sign .both :: ts => do
    let (b, ts) ← pipes fuel ts
    moreConditions fuel (.andThen a b) ts
  | fuel + 1, a, .sign .either :: ts => do
    let (b, ts) ← pipes fuel ts
    moreConditions fuel (.orElse a b) ts
  | _ + 1, a, ts => some (a, ts)

def pipes : Nat → List Token → Option (Script × List Token)
  | 0, _ => none
  | fuel + 1, ts => do
    let (a, ts) ← item fuel ts
    match ts with
    | .sign .bar :: ts =>
      let (b, ts) ← pipes fuel ts
      return (.pipe a b, ts)
    | ts => return (a, ts)

def item : Nat → List Token → Option (Script × List Token)
  | 0, _ => none
  | fuel + 1, .sign .open_ :: ts => do
    let (s, ts) ← sequence fuel ts
    match ts with
    | .sign .close :: ts => return (.nested s, ts)
    | _ => none
  | _ + 1, ts => do
    let (ws, rs, rest) ← commandParts ts
    if ws.isEmpty && rs.isEmpty then none else return (.command ws rs, rest)

end

/-- The tokens of a text; `none` if a quote is not closed. -/
def tokensOf (text : String) : Option (List Token) := tokens (text.length + 2) none text.toList

def ofTokens? (ts : List Token) : Option Script := do
  if ts.isEmpty then return .skip
  let (s, rest) ← sequence (6 * ts.length + 8) ts
  if rest.isEmpty then some s else none

end Shell

end BrilKit
