import BrilKit.Data.Decimal
import BrilKit.Fault

/-!
# Means of doubles

Sums are formed exactly and rounded once.
-/

namespace BrilKit

namespace Mean

structure Fraction where
  num : Int
  den : Nat

def Fraction.add (a b : Fraction) : Fraction := ⟨a.num * b.den + b.num * a.den, a.den * b.den⟩

/-- The exact value of a double; nothing for those that are not finite. -/
def valueOf? (x : Float) : Option Fraction :=
  match Binary64.view x with
  | .finite negative mant exp =>
    let (n, d) := Decimal.fraction mant exp
    some ⟨if negative then -(n : Int) else n, d⟩
  | _ => none

def exactSum? (xs : List Float) : Option Fraction := do
  return (← xs.mapM valueOf?).foldl Fraction.add ⟨0, 1⟩

def Fraction.toDouble? (q : Fraction) : Option Float :=
  Binary64.ofRatio (decide (q.num < 0)) q.num.natAbs q.den

def sum (xs : List Float) : Float :=
  match (exactSum? xs).bind Fraction.toDouble? with
  | some x => x
  | none => xs.foldl (· + ·) 0.0

def geometric (xs : List Float) : Outcome Float :=
  if xs.isEmpty || xs.any fun x => x <= 0.0 then .error .noMean
  else .ok (Float.exp (sum (xs.map Float.log) / Float.ofNat xs.length))

/-- The harmonic mean of doubles that are not negative. One of them is its own mean, and with a
zero among them the mean is zero. -/
def harmonic (xs : List Float) : Outcome Float :=
  if xs.any fun x => x < 0.0 then .error .negativeMean
  else
    match xs with
    | [x] => .ok x
    | xs =>
      if xs.any fun x => x == 0.0 then .ok 0.0
      else
        match exactSum? (xs.map fun x => 1.0 / x) with
        | none => .ok (Float.ofNat xs.length / sum (xs.map fun x => 1.0 / x))
        | some q =>
          if q.num = 0 then .error .negativeMean
          else
            match Binary64.ofRatio false (xs.length * q.den) q.num.natAbs with
            | some x => .ok x
            | none => .error .overflow

def least : List Float → Float
  | [] => 0.0
  | x :: xs => xs.foldl (fun m x => if x < m then x else m) x

def greatest : List Float → Float
  | [] => 0.0
  | x :: xs => xs.foldl (fun m x => if m < x then x else m) x

end Mean

end BrilKit
