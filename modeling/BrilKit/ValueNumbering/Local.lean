import BrilKit.DataFlow.Facts
import BrilKit.Data.Arith

/-!
# Local value numbering

Inside a block every value gets a number, and variables that hold the same value share it. An
operation on numbers that was computed before becomes a copy of a variable that still holds the
result.
-/

namespace BrilKit

namespace ValueNumbering

/-- A computation: an operation on numbered values. -/
structure Value where
  op : String
  args : List Nat
deriving Repr, DecidableEq

/-- Names with numbers, and the next number that has not been given out. -/
structure Numbering where
  table : Table String Nat := .empty
  next : Nat := 0
deriving Repr, DecidableEq

def Numbering.add (n : Numbering) (key : String) : Nat × Numbering :=
  (n.next, { table := n.table.put key n.next, next := n.next + 1 })

/-- What value numbering does beyond sharing equal computations. -/
structure Options where
  prop : Bool := false
  /-- Ignore the order of the operands of commutative operations. -/
  canon : Bool := false
  fold : Bool := false
deriving Repr, DecidableEq

structure State where
  numbers : Numbering := {}
  values : Table Value Nat := .empty
  /-- The variables that hold each numbered value, the one to use first. -/
  homes : Table Nat (List String) := .empty
  consts : Table Nat Datum := .empty

def fetchNumber {α : Type} (t : Table Nat α) (n : Nat) : Outcome α :=
  .ofOption (toString n) (t.get? n)

def State.home (s : State) (n : Nat) : Outcome String := do
  match ← fetchNumber s.homes n with
  | x :: _ => return x
  | [] => .error .outOfRange

/-- The computation with the operands of commutative operations in ascending order. -/
def canonical (v : Value) : Value :=
  if v.op == "add" || v.op == "mul" then { v with args := sortNats v.args } else v

/-- The number of a computation that was done before; a copy has its operand's number. -/
def lookUp (prop : Bool) (values : Table Value Nat) (v : Value) : Outcome (Option Nat) :=
  if prop && v.op == "id" then do return some (← itemAt v.args 0) else .ok (values.get? v)

/-- The constant that a computation gives although some operand is not constant: a value compared
with itself, or a truth value that decides alone. -/
def foldPartly (consts : Table Nat Datum) (v : Value) : Outcome (Option Datum) := do
  if ["eq", "ne", "le", "ge"].contains v.op then
    let a ← itemAt v.args 0
    let b ← itemAt v.args 1
    return if a = b then some (.bool (v.op != "ne")) else none
  else if ["and", "or"].contains v.op && v.args.any consts.has then
    let a ← itemAt v.args 0
    let n ← if consts.has a then pure a else itemAt v.args 1
    let c ← fetchNumber consts n
    return if c.truth == (v.op == "or") then some c else none
  else return none

def foldValue (consts : Table Nat Datum) (v : Value) : Outcome (Option Datum) :=
  if Arith.foldable v.op then
    match v.args.mapM consts.get? with
    | none => foldPartly consts v
    | some args =>
      match Arith.apply v.op args with
      | .ok .null => .ok none
      | .ok d => .ok (some d)
      | .error .divisionByZero => .ok none
      | .error f => .error f
  else .ok none

def lastWrites : Block → List Bool
  | [] => []
  | i :: is =>
    let rest := lastWrites is
    match i.dest with
    | some d => (!is.any fun j => j.dest == some d) :: rest
    | none => false :: rest

/-- The state at the start of a block: the variables read first hold values of their own. They are a
set, so the order in which they are listed is a parameter. -/
def State.initial (first : List String) : State :=
  first.foldl (fun s x =>
    let (n, numbers) := s.numbers.add x
    { s with numbers, homes := s.homes.put n [x] }) {}

def State.clobber (s : State) (dest : Option String) : State :=
  match dest with
  | some d => { s with homes := s.homes.map fun xs => xs.erase d }
  | none => s

def reuse (s : State) (i : Instr) (dest : String) (n : Nat) : Outcome (State × Instr) :=
  let s := { s with numbers := { s.numbers with table := s.numbers.table.put dest n } }
  match s.consts.get? n with
  | some c => .ok (s, i.toConst c)
  | none => do
    let x ← s.home n
    let homes := s.homes.alter n fun xs => xs.getD [] ++ [dest]
    return ({ s with homes }, i.toCopy x)

def compute (o : Options) (s : State) (i : Instr) (dest : String) (last : Bool)
    (v : Option Value) : Outcome (State × Instr) := do
  let (n, numbers) := s.numbers.add dest
  let s := { s with numbers }
  let op ← i.getOp
  let s ← if op == "const" then do pure { s with consts := s.consts.put n (← i.getValue) }
    else pure s
  let home := if last then dest else "lvn." ++ toString n
  let s := { s with homes := s.homes.put n [home] }
  let i := { i with dest := some home }
  match v with
  | none => return (s, i)
  | some v =>
    match ← if o.fold then foldValue s.consts v else pure none with
    | some c => return ({ s with consts := s.consts.put n c }, i.toConst c)
    | none => return ({ s with values := s.values.put v n }, i)

/-- The computation of an instruction, when it can be shared: one with a result and operands that
is not a call. -/
def shared (o : Options) (i : Instr) (numbers : List Nat) : Outcome (Option Value) := do
  if i.dest.isSome && i.args.isSome then
    let op ← i.getOp
    if op == "call" then return none
    else
      let v : Value := ⟨op, numbers⟩
      return some (if o.canon then canonical v else v)
  else return none

def step (o : Options) (s : State) (i : Instr) (last : Bool) : Outcome (State × Instr) := do
  let numbers ← i.uses.mapM s.numbers.table.fetch
  let names ← numbers.mapM s.home
  let i := { i with args := i.args.map fun _ => names }
  let s := s.clobber i.dest
  let v ← shared o i numbers
  match i.dest with
  | none => return (s, i)
  | some dest =>
    let known ← match v with
      | some v => lookUp o.prop s.values v
      | none => pure none
    match known with
    | some n => reuse s i dest n
    | none => compute o s i dest last v

/-- Number the values of a sequence of instructions and put their simplest forms in their place. -/
def steps (o : Options) (s : State) : List (Instr × Bool) → Outcome (List Instr)
  | [] => .ok []
  | (i, last) :: rest => do
    let (s, i) ← step o s i last
    return i :: (← steps o s rest)

def blockFrom (o : Options) (first : List String) (b : Block) : Outcome Block :=
  steps o (State.initial first) (b.zip (lastWrites b))

def block (o : Options) (b : Block) : Outcome Block := blockFrom o (Block.readFirst b) b

def body (o : Options) (is : List Instr) : Outcome (List Instr) := do
  return (← (Block.split is).mapM (block o)).flatten

end ValueNumbering

end BrilKit
