/-!
# Exact values of floating-point numbers

A finite double is a whole number times a power of two. `Binary64.view` gives that form,
`Binary64.ofRatio` goes back: it rounds a quotient of whole numbers to the nearest double, a tie
to the one with an even last digit.
-/

namespace BrilKit

namespace Binary64

-- Powers are the core operation, whatever algebraic structure is in scope.
local instance powNat : Pow Nat Nat := instPowNat

inductive View where
  | nan
  | infinite (negative : Bool)
  /-- The number `± mant * 2 ^ exp`. -/
  | finite (negative : Bool) (mant : Nat) (exp : Int)
deriving Repr, DecidableEq

def view (x : Float) : View :=
  let bits := x.toBits.toNat
  let negative := decide (2 ^ (63 : Nat) ≤ bits)
  let field : Nat := bits / 2 ^ (52 : Nat) % 2048
  let frac : Nat := bits % 2 ^ (52 : Nat)
  if field = 2047 then
    if frac = 0 then .infinite negative else .nan
  else if field = 0 then .finite negative frac (-1074)
  else .finite negative (frac + 2 ^ (52 : Nat)) ((field : Int) - 1075)

/-- The quotient of two whole numbers, rounded to the nearest, a tie to the even neighbour. -/
def roundDiv (num den : Nat) : Nat :=
  let q := num / den
  let r := num % den
  if 2 * r < den then q
  else if den < 2 * r then q + 1
  else if q % 2 = 0 then q else q + 1

/-- The double with these parts; `none` when it would be too large. -/
def assemble (negative : Bool) (mant : Nat) (exp : Int) : Option Float :=
  let (mant, exp) := if mant = 2 ^ (53 : Nat) then (2 ^ (52 : Nat), exp + 1) else (mant, exp)
  let sign := if negative then 2 ^ (63 : Nat) else 0
  if mant < 2 ^ (52 : Nat) then some (Float.ofBits (UInt64.ofNat (sign + mant)))
  else
    let field := (exp + 1075).toNat
    if 2047 ≤ field then none
    else some (Float.ofBits (UInt64.ofNat (sign + field * 2 ^ (52 : Nat) + (mant - 2 ^ (52 : Nat)))))

/-- The fraction `num / den` over `2 ^ e`, as a fraction of whole numbers. -/
def scaleTwo (num den : Nat) (e : Int) : Nat × Nat :=
  if 0 ≤ e then (num, den * 2 ^ e.toNat) else (num * 2 ^ (-e).toNat, den)

/-- Whether the fraction `num / den` over `2 ^ e` is below the bound of a significand. -/
def fits (num den : Nat) (e : Int) : Bool :=
  decide ((scaleTwo num den e).1 < (scaleTwo num den e).2 * 2 ^ (53 : Nat))

def leastScale (num den : Nat) : Int :=
  let guess : Int := (Nat.log2 num : Int) - (Nat.log2 den : Int) - 53
  if fits num den guess then guess else if fits num den (guess + 1) then guess + 1 else guess + 2

/-- The scale of the double nearest to a positive fraction, not below that of the least double. -/
def scaleOf (num den : Nat) : Int := max (leastScale num den) (-1074)

/-- The double nearest to `± num / den`; `none` when that is too large for a double. -/
def ofRatio (negative : Bool) (num den : Nat) : Option Float :=
  if num = 0 then assemble negative 0 (-1074)
  else
    let e := scaleOf num den
    let scaled := scaleTwo num den e
    assemble negative (roundDiv scaled.1 scaled.2) e

/-- The double nearest to a whole number; `none` when it is too large. -/
def ofInt (i : Int) : Option Float := ofRatio (decide (i < 0)) i.natAbs 1

/-- The double of the largest magnitude: an infinity of the given sign. -/
def infinity (negative : Bool) : Float :=
  Float.ofBits (UInt64.ofNat (if negative then 2 ^ (63 : Nat) + 2047 * 2 ^ (52 : Nat) else 2047 * 2 ^ (52 : Nat)))

def compareInt (negative : Bool) (mant : Nat) (exp : Int) (i : Int) : Ordering :=
  let signed : Int := if negative then -(mant : Int) else mant
  if 0 ≤ exp then compare (signed * (2 ^ exp.toNat : Nat)) i
  else compare signed (i * (2 ^ (-exp).toNat : Nat))

/-- How a double compares with a whole number; `none` for a double that is not a number. -/
def compareWithInt (x : Float) (i : Int) : Option Ordering :=
  match view x with
  | .nan => none
  | .infinite negative => some (if negative then .lt else .gt)
  | .finite negative mant exp => some (compareInt negative mant exp i)

end Binary64

end BrilKit
