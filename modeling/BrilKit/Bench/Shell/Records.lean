import BrilKit.Bench.Shell.Edit

/-!
# Programs over records

A program is a list of rules. Each line of the input is a record, split into fields; a rule whose
condition holds of the record runs its statements. Rules can also run before the first record and
after the last one.
-/

namespace BrilKit

namespace Shell

namespace Records

inductive Value where
  | number (x : Float)
  | text (s : String)
  /-- A text from the input, which counts as a number if it looks like one. -/
  | given (s : String)
  | unset
deriving Inhabited

inductive Token where
  | number (x : Float)
  | text (s : String)
  | pattern (p : Pattern)
  | name (s : String)
  | sign (s : String)

inductive Operator where
  | add
  | sub
  | mul
  | div
  | mod
deriving DecidableEq

inductive Comparison where
  | lt
  | le
  | eq
  | ne
  | gt
  | ge
deriving DecidableEq

inductive Expr where
  | value (v : Value)
  | pattern (p : Pattern)
  | named (name : String)
  | field (e : Expr)
  | compute (op : Operator) (a b : Expr)
  | compare (op : Comparison) (a b : Expr)
  | matches (negated : Bool) (a b : Expr)
  | join (a b : Expr)
  | both (a b : Expr)
  | either (a b : Expr)
  | not (a : Expr)
  | choose (c a b : Expr)
  /-- Set a variable or a field. The result is the new value, or the old one if `old`. -/
  | assign (old : Bool) (target e : Expr)
  | call (name : String) (args : List Expr)
deriving Inhabited

inductive Statement where
  | print (args : List Expr)
  | printf (args : List Expr)
  | compute (e : Expr)
  | choose (c : Expr) (yes no : List Statement)
  | next
deriving Inhabited

inductive Condition where
  | begin
  | end_
  | always
  | holds (e : Expr)

structure Rule where
  condition : Condition
  body : List Statement

/-! ### Reading programs -/

def twoSigns : List String :=
  ["&&", "||", "==", "!=", "<=", ">=", "!~", "++", "--", "+=", "-=", "*=", "/=", "%="]

def quotedText : List Char → Option (List Char × List Char)
  | [] => none
  | '"' :: cs => some ([], cs)
  | '\\' :: c :: cs =>
    (quotedText cs).map fun (t, rest) =>
      (if c = 'n' || c = 't' || c = 'r' || c = '"' || c = '\\' || c = '/' then unescaped c :: t
       else '\\' :: c :: t, rest)
  | c :: cs => (quotedText cs).map fun (t, rest) => (c :: t, rest)

def slashedText : List Char → Option (List Char × List Char)
  | [] => none
  | '/' :: cs => some ([], cs)
  | '\\' :: '/' :: cs => (slashedText cs).map fun (t, rest) => ('/' :: t, rest)
  | '\\' :: c :: cs => (slashedText cs).map fun (t, rest) => ('\\' :: c :: t, rest)
  | c :: cs => (slashedText cs).map fun (t, rest) => (c :: t, rest)

def numberAt (cs : List Char) : Float × List Char :=
  let (whole, rest) := cs.span Char.isDigit
  match rest with
  | '.' :: more =>
    let (part, more) := more.span Char.isDigit
    (Decimal.toFloat false (Decimal.digitsValue (whole ++ part)) (-(part.length : Int)), more)
  | _ => (Decimal.toFloat false (Decimal.digitsValue whole) 0, rest)

def endsOperand : Option Token → Bool
  | some (.number _) => true
  | some (.text _) => true
  | some (.name _) => true
  | some (.sign s) => s = ")" || s = "]" || s = "$"
  | _ => false

def tokens : Nat → Option Token → List Char → Option (List Token)
  | 0, _, _ => none
  | _ + 1, _, [] => some []
  | fuel + 1, before, c :: cs =>
    let go (t : Token) (rest : List Char) : Option (List Token) :=
      (tokens fuel (some t) rest).map (t :: ·)
    if c = ' ' || c = '\t' then tokens fuel before cs
    else if c = '#' then tokens fuel before (cs.dropWhile fun d => d ≠ '\n')
    else if c = '\n' then go (.sign ";") cs
    else if c = '"' then
      match quotedText cs with
      | some (t, rest) => go (.text (String.ofList t)) rest
      | none => none
    else if c = '/' && !endsOperand before then
      match slashedText cs with
      | some (t, rest) =>
        match Pattern.read? .extended (String.ofList t) with
        | some p => go (.pattern p) rest
        | none => none
      | none => none
    else if c.isDigit || (c = '.' && (cs.headD ' ').isDigit) then
      let (x, rest) := numberAt (c :: cs)
      go (.number x) rest
    else if c.isAlpha || c = '_' then
      let (name, rest) := (c :: cs).span fun d => d.isAlphanum || d = '_'
      go (.name (String.ofList name)) rest
    else if twoSigns.contains (String.ofList [c, cs.headD ' ']) then
      go (.sign (String.ofList [c, cs.headD ' '])) (cs.drop 1)
    else go (.sign (String.singleton c)) cs

def Expr.ofNat (n : Nat) : Expr := .value (.number (Float.ofNat n))

def Expr.isTarget : Expr → Bool
  | .named _ => true
  | .field _ => true
  | _ => false

def comparisonOf : String → Option Comparison
  | "<" => some .lt
  | "<=" => some .le
  | "==" => some .eq
  | "!=" => some .ne
  | ">" => some .gt
  | ">=" => some .ge
  | _ => none

def operatorOf (strong : Bool) (s : String) : Option Operator :=
  if strong then
    if s = "*" then some .mul
    else if s = "/" then some .div
    else if s = "%" then some .mod
    else none
  else if s = "+" then some .add else if s = "-" then some .sub else none

def updateOf : String → Option Operator
  | "+=" => some .add
  | "-=" => some .sub
  | "*=" => some .mul
  | "/=" => some .div
  | "%=" => some .mod
  | _ => none

def beginsOperand : List Token → Bool
  | .number _ :: _ => true
  | .text _ :: _ => true
  | .name _ :: _ => true
  | .sign s :: _ => s = "$" || s = "(" || s = "!"
  | _ => false

abbrev Parsed := Option (Expr × List Token)

mutual

def expression : Nat → List Token → Parsed
  | 0, _ => none
  | fuel + 1, ts => do
    let (a, ts) ← disjunction fuel ts
    match ts with
    | .sign "=" :: ts =>
      if !a.isTarget then none
      let (e, ts) ← expression fuel ts
      return (.assign false a e, ts)
    | .sign "?" :: ts =>
      let (yes, ts) ← expression fuel ts
      match ts with
      | .sign ":" :: ts =>
        let (no, ts) ← expression fuel ts
        return (.choose a yes no, ts)
      | _ => none
    | .sign s :: rest =>
      match updateOf s with
      | some op =>
        if !a.isTarget then none
        let (e, ts) ← expression fuel rest
        return (.assign false a (.compute op a e), ts)
      | none => return (a, ts)
    | ts => return (a, ts)

def disjunction : Nat → List Token → Parsed
  | 0, _ => none
  | fuel + 1, ts => do
    let (a, ts) ← conjunction fuel ts
    match ts with
    | .sign "||" :: ts =>
      let (b, ts) ← disjunction fuel ts
      return (.either a b, ts)
    | ts => return (a, ts)

def conjunction : Nat → List Token → Parsed
  | 0, _ => none
  | fuel + 1, ts => do
    let (a, ts) ← matching fuel ts
    match ts with
    | .sign "&&" :: ts =>
      let (b, ts) ← conjunction fuel ts
      return (.both a b, ts)
    | ts => return (a, ts)

def matching : Nat → List Token → Parsed
  | 0, _ => none
  | fuel + 1, ts => do
    let (a, ts) ← comparison fuel ts
    match ts with
    | .sign "~" :: ts =>
      let (b, ts) ← comparison fuel ts
      return (.matches false a b, ts)
    | .sign "!~" :: ts =>
      let (b, ts) ← comparison fuel ts
      return (.matches true a b, ts)
    | ts => return (a, ts)

def comparison : Nat → List Token → Parsed
  | 0, _ => none
  | fuel + 1, ts => do
    let (a, ts) ← joined fuel ts
    match ts with
    | .sign s :: rest =>
      match comparisonOf s with
      | some op =>
        let (b, ts) ← joined fuel rest
        return (.compare op a b, ts)
      | none => return (a, ts)
    | ts => return (a, ts)

def joined : Nat → List Token → Parsed
  | 0, _ => none
  | fuel + 1, ts => do
    let (a, ts) ← sum fuel ts
    moreJoined fuel a ts

def moreJoined : Nat → Expr → List Token → Parsed
  | 0, _, _ => none
  | fuel + 1, a, ts =>
    if beginsOperand ts then do
      let (b, ts) ← sum fuel ts
      moreJoined fuel (.join a b) ts
    else some (a, ts)

def sum : Nat → List Token → Parsed
  | 0, _ => none
  | fuel + 1, ts => do
    let (a, ts) ← product fuel ts
    moreTerms fuel false a ts

def product : Nat → List Token → Parsed
  | 0, _ => none
  | fuel + 1, ts => do
    let (a, ts) ← operand fuel ts
    moreTerms fuel true a ts

def moreTerms : Nat → Bool → Expr → List Token → Parsed
  | 0, _, _, _ => none
  | fuel + 1, strong, a, ts =>
    match ts with
    | .sign s :: rest =>
      match operatorOf strong s with
      | some op => do
        let (b, ts) ← if strong then operand fuel rest else product fuel rest
        moreTerms fuel strong (.compute op a b) ts
      | none => some (a, ts)
    | ts => some (a, ts)

def operand : Nat → List Token → Parsed
  | 0, _ => none
  | fuel + 1, .sign "!" :: ts => do
    let (a, ts) ← operand fuel ts
    return (.not a, ts)
  | fuel + 1, .sign "-" :: ts => do
    let (a, ts) ← operand fuel ts
    return (.compute .sub (.ofNat 0) a, ts)
  | fuel + 1, .sign "+" :: ts => do
    let (a, ts) ← operand fuel ts
    return (.compute .add (.ofNat 0) a, ts)
  | fuel + 1, .sign "++" :: ts => do
    let (a, ts) ← atom fuel ts
    return (.assign false a (.compute .add a (.ofNat 1)), ts)
  | fuel + 1, .sign "--" :: ts => do
    let (a, ts) ← atom fuel ts
    return (.assign false a (.compute .sub a (.ofNat 1)), ts)
  | fuel + 1, ts => do
    let (a, ts) ← atom fuel ts
    match ts with
    | .sign "++" :: rest =>
      if a.isTarget then return (.assign true a (.compute .add a (.ofNat 1)), rest)
      else return (a, ts)
    | .sign "--" :: rest =>
      if a.isTarget then return (.assign true a (.compute .sub a (.ofNat 1)), rest)
      else return (a, ts)
    | ts => return (a, ts)

/-- A number, a text, a pattern, a field, a variable, a call, or an expression in parentheses. -/
def atom : Nat → List Token → Parsed
  | 0, _ => none
  | _ + 1, .number x :: ts => some (.value (.number x), ts)
  | _ + 1, .text s :: ts => some (.value (.text s), ts)
  | _ + 1, .pattern p :: ts => some (.pattern p, ts)
  | fuel + 1, .sign "$" :: ts => do
    let (a, ts) ← atom fuel ts
    return (.field a, ts)
  | fuel + 1, .sign "(" :: ts => do
    let (a, ts) ← expression fuel ts
    match ts with
    | .sign ")" :: ts => return (a, ts)
    | _ => none
  | fuel + 1, .name f :: .sign "(" :: ts => do
    let (args, ts) ← arguments fuel ts
    match ts with
    | .sign ")" :: ts => return (.call f args, ts)
    | _ => none
  | _ + 1, .name "length" :: ts => some (.call "length" [], ts)
  | _ + 1, .name x :: ts => some (.named x, ts)
  | _ + 1, _ => none

/-- Expressions between commas; none in front of a sign that ends them. -/
def arguments : Nat → List Token → Option (List Expr × List Token)
  | 0, _ => none
  | _ + 1, [] => some ([], [])
  | fuel + 1, ts =>
    match ts with
    | .sign ")" :: _ => some ([], ts)
    | .sign ";" :: _ => some ([], ts)
    | .sign "\x7d" :: _ => some ([], ts)
    | _ => do
      let (e, ts) ← expression fuel ts
      match ts with
      | .sign "," :: ts =>
        let (es, ts) ← arguments fuel ts
        return (e :: es, ts)
      | ts => return ([e], ts)

end

mutual

def statement : Nat → List Token → Option (Statement × List Token)
  | 0, _ => none
  | fuel + 1, .name "print" :: ts => do
    let (args, ts) ← arguments fuel ts
    return (.print args, ts)
  | fuel + 1, .name "printf" :: ts => do
    let (args, ts) ← arguments fuel ts
    return (.printf args, ts)
  | _ + 1, .name "next" :: ts => some (.next, ts)
  | fuel + 1, .name "if" :: .sign "(" :: ts => do
    let (c, ts) ← expression fuel ts
    match ts with
    | .sign ")" :: ts =>
      let (yes, ts) ← body fuel ts
      match ts with
      | .name "else" :: ts =>
        let (no, ts) ← body fuel ts
        return (.choose c yes no, ts)
      | .sign ";" :: .name "else" :: ts =>
        let (no, ts) ← body fuel ts
        return (.choose c yes no, ts)
      | ts => return (.choose c yes [], ts)
    | _ => none
  | fuel + 1, ts => do
    let (e, ts) ← expression fuel ts
    return (.compute e, ts)

def body : Nat → List Token → Option (List Statement × List Token)
  | 0, _ => none
  | fuel + 1, .sign "\x7b" :: ts => statements fuel ts
  | fuel + 1, ts => do
    let (s, ts) ← statement fuel ts
    return ([s], ts)

def statements : Nat → List Token → Option (List Statement × List Token)
  | 0, _ => none
  | _ + 1, [] => none
  | _ + 1, .sign "\x7d" :: ts => some ([], ts)
  | fuel + 1, .sign ";" :: ts => statements fuel ts
  | fuel + 1, ts => do
    let (s, ts) ← statement fuel ts
    let (ss, ts) ← statements fuel ts
    return (s :: ss, ts)

end

def rules : Nat → List Token → Option (List Rule)
  | 0, _ => none
  | _ + 1, [] => some []
  | fuel + 1, .sign ";" :: ts => rules fuel ts
  | fuel + 1, ts => do
    let (condition, ts) ← (match ts with
      | .name "BEGIN" :: ts => some (Condition.begin, ts)
      | .name "END" :: ts => some (Condition.end_, ts)
      | .sign "\x7b" :: _ => some (Condition.always, ts)
      | ts => (expression fuel ts).map fun (e, ts) => (Condition.holds e, ts))
    match ts with
    | .sign "\x7b" :: ts =>
      let (body, ts) ← statements fuel ts
      return { condition, body } :: (← rules fuel ts)
    | ts => return { condition, body := [.print []] } :: (← rules fuel ts)

def read? (text : String) : Option (List Rule) := do
  let ts ← tokens (text.length + 1) none text.toList
  rules (16 * ts.length + 32) ts

/-! ### Running programs -/

def sixDigits (x : Float) : String :=
  match Binary64.view x with
  | .nan => "nan"
  | .infinite negative => if negative then "-inf" else "inf"
  | .finite negative mant exp =>
    let (num, den) := Decimal.fraction mant exp
    let top := Decimal.exponent num den
    let (n, d) := Decimal.scaleTen num den (5 - top)
    let (digits, k) := Decimal.stripZeros 20 (Binary64.roundDiv n d) (top - 5)
    let written := Decimal.layout digits k
    let written := if k ≥ 0 then String.ofList (written.toList.takeWhile fun c => c ≠ '.')
      else written
    (if negative then "-" else "") ++ written

def numberText (x : Float) : String :=
  if x == x.floor && x.abs < 1e16 then
    (if x < 0 then "-" else "") ++ toString x.abs.toUInt64.toNat
  else sixDigits x

def numberOf (s : String) : Float × Bool :=
  let cs := s.toList.dropWhile fun c => c = ' ' || c = '\t'
  let (negative, cs) :=
    match cs with
    | '-' :: r => (true, r)
    | '+' :: r => (false, r)
    | r => (false, r)
  let (x, rest) := numberAt cs
  let complete := (cs.headD ' ').isDigit && rest.all fun c => c = ' ' || c = '\t'
  (if negative then -x else x, complete)

def Value.amount : Value → Float
  | .number x => x
  | .text s => (numberOf s).1
  | .given s => (numberOf s).1
  | .unset => 0

def Value.string : Value → String
  | .number x => numberText x
  | .text s => s
  | .given s => s
  | .unset => ""

def Value.isNumeric : Value → Bool
  | .number _ => true
  | .text _ => false
  | .given s => (numberOf s).2
  | .unset => true

def Value.holds (v : Value) : Bool :=
  if v.isNumeric then v.amount != 0 else v.string != ""

structure Run where
  record : String := ""
  fields : List String := []
  bindings : List (String × Value) := []
  output : String := ""
  /-- Whether the rest of the rules is left out for this record. -/
  skip : Bool := false

def split (separator record : String) : List String :=
  if separator = " " then wordsOf record
  else if record = "" then []
  else record.splitOn separator

namespace Run

def get (r : Run) (name : String) : Value :=
  if name = "NF" then .number (Float.ofNat r.fields.length)
  else (r.bindings.lookup name).getD .unset

def set (r : Run) (name : String) (v : Value) : Run :=
  { r with bindings := (name, v) :: r.bindings.filter fun b => b.1 != name }

def separator (r : Run) : String :=
  match r.get "FS" with
  | .unset => " "
  | v => v.string

def outputSeparator (r : Run) : String :=
  match r.get "OFS" with
  | .unset => " "
  | v => v.string

def field (r : Run) (k : Nat) : Value :=
  if k = 0 then .given r.record
  else match r.fields[k - 1]? with
    | some s => .given s
    | none => .unset

def load (r : Run) (record : String) : Run :=
  { r with record, fields := split r.separator record, skip := false }

def setField (r : Run) (k : Nat) (s : String) : Run :=
  if k = 0 then r.load s
  else
    let fields := (r.fields ++ List.replicate (k - r.fields.length) "").set (k - 1) s
    { r with fields, record := r.outputSeparator.intercalate fields }

def write (r : Run) (s : String) : Run := { r with output := r.output ++ s }

end Run

def truth (b : Bool) : Value := .number (if b then 1 else 0)

def Operator.apply (x y : Float) : Operator → Float
  | .add => x + y
  | .sub => x - y
  | .mul => x * y
  | .div => x / y
  | .mod =>
    let q := x / y
    x - y * (if q < 0 then q.ceil else q.floor)

def Comparison.apply (a b : Value) (op : Comparison) : Bool :=
  let order : Ordering :=
    if a.isNumeric && b.isNumeric then
      if a.amount < b.amount then .lt else if a.amount == b.amount then .eq else .gt
    else compare a.string b.string
  match op with
  | .lt => order == .lt
  | .le => order != .gt
  | .eq => order == .eq
  | .ne => order != .eq
  | .gt => order == .gt
  | .ge => order != .lt

def apply (r : Run) (name : String) (args : List Value) : Value :=
  let text (k : Nat) : String := ((args[k]?).getD .unset).string
  let number (k : Nat) : Float := ((args[k]?).getD .unset).amount
  match name with
  | "length" =>
    .number (Float.ofNat (if args.isEmpty then r.record.length else (text 0).length))
  | "toupper" => .text ((text 0).map Char.toUpper)
  | "tolower" => .text ((text 0).map Char.toLower)
  | "int" =>
    let x := number 0
    .number (if x < 0 then x.ceil else x.floor)
  | "index" =>
    match Pattern.search (Pattern.literal (text 1)) (text 0) with
    | some m => .number (Float.ofNat (m.before.length + 1))
    | none => .number 0
  | "substr" =>
    let start := (number 1).toUInt64.toNat - 1
    let rest := (text 0).toList.drop start
    .text (String.ofList (if args.length < 3 then rest else rest.take (number 2).toUInt64.toNat))
  | _ => .unset

def patternOf (e : Expr) (v : Value) : Option Pattern :=
  match e with
  | .pattern p => some p
  | _ => Pattern.read? .extended v.string

/-- Replace the first match or all matches in a variable or a field, by default in the record. The
result tells whether something was replaced. -/
def substitute (all : Bool) (args : List Expr) (vs : List Value) (r : Run) : Value × Run :=
  let text (v : Value) : String × Bool :=
    match args.head?.bind fun e => patternOf e (vs.headD .unset) with
    | some p => Edit.replace p (vs.getD 1 .unset).string.toList all v.string
    | none => (v.string, false)
  match args.drop 2 with
  | .named x :: _ =>
    let (t, found) := text (r.get x)
    (truth found, if found then r.set x (.text t) else r)
  | .field (.value k) :: _ =>
    let k := k.amount.toUInt64.toNat
    let (t, found) := text (r.field k)
    (truth found, if found then r.setField k t else r)
  | _ =>
    let (t, found) := text (r.field 0)
    (truth found, if found then r.setField 0 t else r)

def format : List Char → List Value → String
  | '%' :: '%' :: cs, vs => "%" ++ format cs vs
  | '%' :: 's' :: cs, vs => (vs.headD .unset).string ++ format cs vs.tail
  | '%' :: 'd' :: cs, vs => numberText (vs.headD .unset).amount.floor ++ format cs vs.tail
  | c :: cs, vs => c.toString ++ format cs vs
  | [], _ => ""

mutual

def eval : Expr → Run → Value × Run
  | .value v, r => (v, r)
  | .pattern p, r => (truth (Pattern.search p r.record).isSome, r)
  | .named x, r => (r.get x, r)
  | .field e, r =>
    let (v, r) := eval e r
    (r.field v.amount.toUInt64.toNat, r)
  | .compute op a b, r =>
    let (x, r) := eval a r
    let (y, r) := eval b r
    (.number (op.apply x.amount y.amount), r)
  | .compare op a b, r =>
    let (x, r) := eval a r
    let (y, r) := eval b r
    (truth (op.apply x y), r)
  | .matches negated a b, r =>
    let (x, r) := eval a r
    match b with
    | .pattern p => (truth ((Pattern.search p x.string).isSome != negated), r)
    | b =>
      let (y, r) := eval b r
      let found := match Pattern.read? .extended y.string with
        | some p => (Pattern.search p x.string).isSome
        | none => false
      (truth (found != negated), r)
  | .join a b, r =>
    let (x, r) := eval a r
    let (y, r) := eval b r
    (.text (x.string ++ y.string), r)
  | .both a b, r =>
    let (x, r) := eval a r
    if x.holds then
      let (y, r) := eval b r
      (truth y.holds, r)
    else (truth false, r)
  | .either a b, r =>
    let (x, r) := eval a r
    if x.holds then (truth true, r)
    else
      let (y, r) := eval b r
      (truth y.holds, r)
  | .not a, r =>
    let (x, r) := eval a r
    (truth !x.holds, r)
  | .choose c a b, r =>
    let (x, r) := eval c r
    if x.holds then eval a r else eval b r
  | .assign old target e, r =>
    let (before, r) := eval target r
    let (v, r) := eval e r
    let result := if old then .number before.amount else v
    match target with
    | .named x => (result, r.set x v)
    | .field k =>
      let (n, r) := eval k r
      (result, r.setField n.amount.toUInt64.toNat v.string)
    | _ => (result, r)
  | .call name args, r =>
    let (vs, r) := evalAll args r
    if name = "sub" || name = "gsub" then substitute (name = "gsub") args vs r
    else (apply r name vs, r)

def evalAll : List Expr → Run → List Value × Run
  | [], r => ([], r)
  | e :: es, r =>
    let (v, r) := eval e r
    let (vs, r) := evalAll es r
    (v :: vs, r)

end

mutual

def runStatement : Statement → Run → Run
  | .print [], r => r.write (r.record ++ "\n")
  | .print args, r =>
    let (vs, r) := evalAll args r
    r.write (r.outputSeparator.intercalate (vs.map Value.string) ++ "\n")
  | .printf args, r =>
    let (vs, r) := evalAll args r
    match vs with
    | [] => r
    | f :: vs => r.write (format f.string.toList vs)
  | .compute e, r => (eval e r).2
  | .choose c yes no, r =>
    let (v, r) := eval c r
    if v.holds then runStatements yes r else runStatements no r
  | .next, r => { r with skip := true }

def runStatements : List Statement → Run → Run
  | [], r => r
  | s :: ss, r =>
    let r := runStatement s r
    if r.skip then r else runStatements ss r

end

def runRecord (rs : List Rule) (r : Run) : Run :=
  rs.foldl (fun r rule =>
    if r.skip then r
    else match rule.condition with
      | .always => runStatements rule.body r
      | .holds e =>
        let (v, r) := eval e r
        if v.holds then runStatements rule.body r else r
      | _ => r) r

def runOutside (atEnd : Bool) (rs : List Rule) (r : Run) : Run :=
  rs.foldl (fun r rule =>
    match rule.condition, atEnd with
    | .begin, false => runStatements rule.body r
    | .end_, true => runStatements rule.body r
    | _, _ => r) r

/-- Run a program, with variables set beforehand; `none` if it cannot be read. -/
def run (settings : List (String × String)) (program input : String) : Option String := do
  let rs ← read? program
  let r : Run := { bindings := ("NR", .number 0) :: settings.map fun (x, s) => (x, .given s) }
  let r := runOutside false rs r
  let r := (linesOf input).zipIdx.foldl (fun r (l, k) =>
    runRecord rs ((r.set "NR" (.number (Float.ofNat (k + 1)))).load l)) r
  return (runOutside true rs { r with skip := false }).output

end Records

end Shell

end BrilKit
