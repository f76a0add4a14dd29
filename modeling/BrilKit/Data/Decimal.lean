import BrilKit.Data.Binary64

/-!
# Decimal text of numbers

The text of a double has the fewest significant digits that read back as the same double; of several
such texts it is the nearest to the exact value.
-/

namespace BrilKit

namespace Decimal

-- Powers are the core operation, as in the exact values of doubles.
local instance powNat : Pow Nat Nat := instPowNat

/-- The quotient `± num * 10 ^ k` over `den`, as a fraction of whole numbers. -/
def scaleTen (num den : Nat) (k : Int) : Nat × Nat :=
  if 0 ≤ k then (num * 10 ^ k.toNat, den) else (num, den * 10 ^ (-k).toNat)

/-- `mant * 2 ^ exp` as a fraction of whole numbers. -/
def fraction (mant : Nat) (exp : Int) : Nat × Nat :=
  if 0 ≤ exp then (mant * 2 ^ exp.toNat, 1) else (mant, 2 ^ (-exp).toNat)

/-- The decimal exponent of a positive fraction: the `k` with `10 ^ k ≤ num / den < 10 ^ (k + 1)`,
searched for upward from a lower bound. -/
def exponentFrom (num den : Nat) : Nat → Int → Int
  | 0, k => k
  | fuel + 1, k =>
    let (n, d) := scaleTen num den (-(k + 1))
    if n < d then k else exponentFrom num den fuel (k + 1)

def exponent (num den : Nat) : Int :=
  let bits : Int := (Nat.log2 num : Int) - (Nat.log2 den : Int)
  exponentFrom num den 6 (bits * 30103 / 100000 - 2)

/-- Whether `digits * 10 ^ k` reads back as the double `mant * 2 ^ exp`. -/
def readsBack (mant : Nat) (exp : Int) (digits : Nat) (k : Int) : Bool :=
  let (n, d) := scaleTen digits 1 k
  match Binary64.ofRatio false n d, Binary64.assemble false mant exp with
  | some x, some y => x.toBits == y.toBits
  | _, _ => false

/-- The double `mant * 2 ^ exp` over `10 ^ k`, as a fraction of whole numbers. -/
def gridQuotient (mant : Nat) (exp k : Int) : Nat × Nat :=
  let (num, den) := fraction mant exp
  scaleTen num den (-k)

/-- The two neighbours of the double `mant * 2 ^ exp` among the multiples of `10 ^ k`, the nearer
first. -/
def neighbours (mant : Nat) (exp k : Int) : List Nat :=
  let (a, b) := gridQuotient mant exp k
  let low := a / b
  let near := Binary64.roundDiv a b
  [near, if near = low then low + 1 else low]

/-- Of the two neighbours of a positive double on the grid of `n` significant digits, the ones that
read back, the nearer first. -/
def candidates (mant : Nat) (exp : Int) (top : Int) (n : Nat) : List (Nat × Int) :=
  let k : Int := top - (n : Int) + 1
  ((neighbours mant exp k).map fun d => (d, k)).filter fun c => readsBack mant exp c.1 c.2

/-- The fewest digits that read back, tried from `n` digits on. -/
def shortestFrom (mant : Nat) (exp : Int) (top : Int) : Nat → Nat → Nat × Int
  | 0, _ => (mant, exp)
  | fuel + 1, n =>
    match candidates mant exp top n with
    | c :: _ => c
    | [] => shortestFrom mant exp top fuel (n + 1)

/-- Strip trailing zeros from `digits * 10 ^ k`. -/
def stripZeros : Nat → Nat → Int → Nat × Int
  | 0, digits, k => (digits, k)
  | fuel + 1, digits, k =>
    if digits % 10 = 0 ∧ digits ≠ 0 then stripZeros fuel (digits / 10) (k + 1) else (digits, k)

/-- The digits `d` and exponent `k` with the fewest digits such that `d * 10 ^ k` reads back as
the positive double `mant * 2 ^ exp`. -/
def shortest (mant : Nat) (exp : Int) : Nat × Int :=
  let (num, den) := fraction mant exp
  let (digits, k) := shortestFrom mant exp (exponent num den) 17 1
  stripZeros 20 digits k

def digitsOf (n : Nat) : List Char := Nat.toDigits 10 n

def padTwo (n : Nat) : String :=
  let s := toString n
  if s.length < 2 then "0" ++ s else s

/-- The text of a positive number with an exponent, given its digits and the decimal exponent of
the leading one. -/
def scientific (ds : List Char) (top : Int) : String :=
  let rest := ds.drop 1
  let frac := if rest.isEmpty then "" else "." ++ String.ofList rest
  String.ofList (ds.take 1) ++ frac ++ "e" ++ (if top < 0 then "-" else "+") ++ padTwo top.natAbs

/-- The text of the positive number `digits * 10 ^ k`: positional when the decimal exponent of the
leading digit is from `-4` to `15`, otherwise with an exponent of at least two digits. A
positional text always has a fraction. -/
def layout (digits : Nat) (k : Int) : String :=
  let ds := digitsOf digits
  let count : Int := ds.length
  let top : Int := k + count - 1
  if top < -4 ∨ 16 ≤ top then scientific ds top
  else if 0 ≤ k then
    String.ofList (ds ++ List.replicate k.toNat '0') ++ ".0"
  else if 0 ≤ top then
    let whole := (top + 1).toNat
    String.ofList (ds.take whole) ++ "." ++ String.ofList (ds.drop whole)
  else
    "0." ++ String.ofList (List.replicate (-top - 1).toNat '0' ++ ds)

def ofFloat (x : Float) : String :=
  match Binary64.view x with
  | .nan => "nan"
  | .infinite negative => if negative then "-inf" else "inf"
  | .finite negative mant exp =>
    let sign := if negative then "-" else ""
    if mant = 0 then sign ++ "0.0"
    else
      let (digits, k) := shortest mant exp
      sign ++ layout digits k

/-- The text of a double with two places, rounded from its exact value. -/
def twoPlaces (x : Float) : String :=
  match Binary64.view x with
  | .nan => "nan"
  | .infinite negative => if negative then "-inf" else "inf"
  | .finite negative mant exp =>
    let (num, den) := fraction mant exp
    let cents := Binary64.roundDiv (num * 100) den
    (if negative then "-" else "") ++ toString (cents / 100) ++ "." ++ padTwo (cents % 100)

def digitsValue (ds : List Char) : Nat :=
  ds.foldl (fun n c => 10 * n + (c.toNat - '0'.toNat)) 0

/-- The double nearest to `± digits * 10 ^ k`, an infinity when it is too large. -/
def toFloat (negative : Bool) (digits : Nat) (k : Int) : Float :=
  let size : Int := (digitsOf digits).length
  if digits = 0 ∨ size + k < -400 then (Binary64.ofRatio negative 0 1).getD 0.0
  else if 400 < size + k then Binary64.infinity negative
  else
    let (n, d) := scaleTen digits 1 k
    (Binary64.ofRatio negative n d).getD (Binary64.infinity negative)

end Decimal

end BrilKit
