import BrilKit.Data.Datum
import BrilKit.Fault

/-!
# Arithmetic on constants

The operations of the language on constant operands.
-/

namespace BrilKit

namespace Arith

def toDouble : Datum → Outcome Float
  | .float x => .ok x
  | d =>
    match d.toInt? with
    | some i =>
      match Binary64.ofInt i with
      | some x => .ok x
      | none => .error .overflow
    | none => .error .kind

def numeric (onInts : Int → Int → Outcome Datum) (onDoubles : Float → Float → Outcome Datum)
    (a b : Datum) : Outcome Datum :=
  match a.toInt?, b.toInt? with
  | some i, some j => onInts i j
  | _, _ => do onDoubles (← toDouble a) (← toDouble b)

def repeatText (s : String) (n : Int) : Datum := .str (String.join (List.replicate n.toNat s))

def repeatList (xs : List Datum) (n : Int) : Datum :=
  .list (List.replicate n.toNat xs).flatten

def add : Datum → Datum → Outcome Datum
  | .str s, .str t => .ok (.str (s ++ t))
  | .list xs, .list ys => .ok (.list (xs ++ ys))
  | a, b => numeric (fun i j => .ok (.int (i + j))) (fun x y => .ok (.float (x + y))) a b

def sub : Datum → Datum → Outcome Datum :=
  numeric (fun i j => .ok (.int (i - j))) fun x y => .ok (.float (x - y))

def mul : Datum → Datum → Outcome Datum
  | .str s, b =>
    match b.toInt? with
    | some n => .ok (repeatText s n)
    | none => .error .kind
  | .list xs, b =>
    match b.toInt? with
    | some n => .ok (repeatList xs n)
    | none => .error .kind
  | a, .str s =>
    match a.toInt? with
    | some n => .ok (repeatText s n)
    | none => .error .kind
  | a, .list xs =>
    match a.toInt? with
    | some n => .ok (repeatList xs n)
    | none => .error .kind
  | a, b => numeric (fun i j => .ok (.int (i * j))) (fun x y => .ok (.float (x * y))) a b

def signedFraction (negative : Bool) (mant : Nat) (exp : Int) : Int × Nat :=
  let (n, d) := Decimal.fraction mant exp
  (if negative then -(n : Int) else n, d)

def floorDouble (x y : Float) : Outcome Datum :=
  let nan : Float := 0.0 / 0.0
  if y == 0.0 then .error .divisionByZero
  else
    match Binary64.view x, Binary64.view y with
    | .nan, _ => .ok (.float nan)
    | _, .nan => .ok (.float nan)
    | .infinite _, _ => .ok (.float nan)
    | .finite nx mx _, .infinite ny =>
      .ok (.float (if mx = 0 ∨ nx = ny then x / y else -1.0))
    | .finite nx mx ex, .finite ny my ey =>
      let (a, b) := signedFraction nx mx ex
      let (c, d) := signedFraction ny my ey
      let q := Int.fdiv (a * d) (b * c)
      if q = 0 then .ok (.float (if nx = ny then 0.0 else -0.0))
      else .ok (.float ((Binary64.ofInt q).getD (Binary64.infinity (decide (q < 0)))))

def div : Datum → Datum → Outcome Datum :=
  numeric (fun i j => if j = 0 then .error .divisionByZero else .ok (.int (Int.fdiv i j)))
    floorDouble

/-- How two numbers compare; `none` when one is not a number. -/
def compareNumbers : Datum → Datum → Outcome (Option Ordering)
  | .float x, .float y =>
    .ok (if x < y then some .lt else if x == y then some .eq else if y < x then some .gt else none)
  | .float x, b =>
    match b.toInt? with
    | some j => .ok (Binary64.compareWithInt x j)
    | none => .error .kind
  | a, .float y =>
    match a.toInt? with
    | some i => .ok ((Binary64.compareWithInt y i).map Ordering.swap)
    | none => .error .kind
  | a, b =>
    match a.toInt?, b.toInt? with
    | some i, some j => .ok (some (compare i j))
    | _, _ => .error .kind

/-- How two values compare: numbers by value, texts by the code points of their characters. -/
def order : Datum → Datum → Outcome (Option Ordering)
  | .str s, .str t => .ok (some (if s < t then .lt else if s = t then .eq else .gt))
  | a, b => compareNumbers a b

def compareBy (accept : Ordering → Bool) (a b : Datum) : Outcome Datum := do
  return .bool ((← order a b).any accept)

def binary : String → Option (Datum → Datum → Outcome Datum)
  | "add" => some add
  | "mul" => some mul
  | "sub" => some sub
  | "div" => some div
  | "gt" => some (compareBy fun o => o == .gt)
  | "lt" => some (compareBy fun o => o == .lt)
  | "ge" => some (compareBy fun o => o != .lt)
  | "le" => some (compareBy fun o => o != .gt)
  | "ne" => some fun a b => .ok (.bool !(a.equal b))
  | "eq" => some fun a b => .ok (.bool (a.equal b))
  | "or" => some fun a b => .ok (if a.truth then a else b)
  | "and" => some fun a b => .ok (if a.truth then b else a)
  | _ => none

def foldable (op : String) : Bool := op == "not" || (binary op).isSome

def apply (op : String) (args : List Datum) : Outcome Datum :=
  if op == "not" then
    match args with
    | [a] => .ok (.bool !a.truth)
    | _ => .error .kind
  else
    match binary op, args with
    | some f, [a, b] => f a b
    | _, _ => .error .kind

def ratio (a b : Datum) : Outcome Float :=
  match a.toInt?, b.toInt? with
  | some i, some j =>
    if j = 0 then .error .divisionByZero
    else
      match Binary64.ofRatio (decide (i < 0) != decide (j < 0)) i.natAbs j.natAbs with
      | some x => .ok x
      | none => .error .overflow
  | _, _ => do
    let x ← toDouble a
    let y ← toDouble b
    if y == 0.0 then .error .divisionByZero else return x / y

end Arith

end BrilKit
