import BrilKit.Data.Datum
import BrilKit.Fault

/-!
# Reading JSON text

The reader takes standard JSON and, as numbers, also `NaN`, `Infinity` and `-Infinity`. A number
without fraction and exponent is a whole number of any size. When a record names a field twice the
later value counts.
-/

namespace BrilKit

namespace Json

def skipBlank (cs : List Char) : List Char :=
  cs.dropWhile fun c => c = ' ' || c = '\t' || c = '\n' || c = '\r'

def afterWord (w : String) (cs : List Char) : Option (List Char) :=
  if w.toList.isPrefixOf cs then some (cs.drop w.length) else none

def hexValue (c : Char) : Option Nat :=
  if '0' ≤ c ∧ c ≤ '9' then some (c.toNat - '0'.toNat)
  else if 'a' ≤ c ∧ c ≤ 'f' then some (c.toNat - 'a'.toNat + 10)
  else if 'A' ≤ c ∧ c ≤ 'F' then some (c.toNat - 'A'.toNat + 10)
  else none

def hexFour : List Char → Option (Nat × List Char)
  | a :: b :: c :: d :: rest => do
    let a ← hexValue a
    let b ← hexValue b
    let c ← hexValue c
    let d ← hexValue d
    some (((a * 16 + b) * 16 + c) * 16 + d, rest)
  | _ => none

def simpleEscape (c : Char) : Option Char :=
  if c = '"' then some '"'
  else if c = '\\' then some '\\'
  else if c = '/' then some '/'
  else if c = 'b' then some (Char.ofNat 8)
  else if c = 'f' then some (Char.ofNat 12)
  else if c = 'n' then some '\n'
  else if c = 'r' then some '\r'
  else if c = 't' then some '\t'
  else none

def unitChar (unit : Nat) (rest : List Char) : Char × List Char :=
  let single := if 0xd800 ≤ unit ∧ unit ≤ 0xdfff then Char.ofNat 0xfffd else Char.ofNat unit
  if 0xd800 ≤ unit ∧ unit ≤ 0xdbff then
    match rest with
    | '\\' :: 'u' :: more =>
      match hexFour more with
      | some (low, more) =>
        if 0xdc00 ≤ low ∧ low ≤ 0xdfff then
          (Char.ofNat (0x10000 + (unit - 0xd800) * 0x400 + (low - 0xdc00)), more)
        else (single, rest)
      | none => (single, rest)
    | _ => (single, rest)
  else (single, rest)

/-- The characters of a text up to its closing quote; each step takes at least one character. -/
def textBody : Nat → List Char → Option (List Char × List Char)
  | 0, _ => none
  | _ + 1, [] => none
  | fuel + 1, c :: cs =>
    if c = '"' then some ([], cs)
    else if c = '\\' then
      match cs with
      | [] => none
      | e :: rest =>
        if e = 'u' then do
          let (unit, rest) ← hexFour rest
          let (ch, rest) := unitChar unit rest
          let (body, rest) ← textBody fuel rest
          some (ch :: body, rest)
        else do
          let ch ← simpleEscape e
          let (body, rest) ← textBody fuel rest
          some (ch :: body, rest)
    else if c.toNat < 0x20 then none
    else do
      let (body, rest) ← textBody fuel cs
      some (c :: body, rest)

def digits (cs : List Char) : List Char × List Char :=
  (cs.takeWhile Char.isDigit, cs.dropWhile Char.isDigit)

def exponentPart (cs : List Char) : Option (Int × List Char) :=
  match cs with
  | e :: rest =>
    if e = 'e' ∨ e = 'E' then
      let (negative, rest) :=
        match rest with
        | '-' :: r => (true, r)
        | '+' :: r => (false, r)
        | r => (false, r)
      let (ds, rest) := digits rest
      if ds.isEmpty then none
      else
        let n : Int := Decimal.digitsValue ds
        some (if negative then -n else n, rest)
    else none
  | [] => none

def fractionPart (cs : List Char) : Option (List Char × List Char) :=
  match cs with
  | '.' :: rest =>
    let (ds, rest) := digits rest
    if ds.isEmpty then none else some (ds, rest)
  | _ => none

/-- A number whose sign has been read. A whole part of more than one digit does not start with
a zero. -/
def unsignedNumber (negative : Bool) (cs : List Char) : Option (Datum × List Char) :=
  let (whole, rest) :=
    match cs with
    | '0' :: rest => (['0'], rest)
    | cs => digits cs
  if whole.isEmpty then none
  else
    let frac := fractionPart rest
    let afterFrac := (frac.map Prod.snd).getD rest
    let exp := exponentPart afterFrac
    let afterExp := (exp.map Prod.snd).getD afterFrac
    if frac.isNone && exp.isNone then
      let n : Int := Decimal.digitsValue whole
      some (.int (if negative then -n else n), rest)
    else
      let fracDigits := (frac.map Prod.fst).getD []
      let k := (exp.map Prod.fst).getD 0 - (fracDigits.length : Int)
      let x := Decimal.toFloat negative (Decimal.digitsValue (whole ++ fracDigits)) k
      some (.float x, afterExp)

def scalar (cs : List Char) : Option (Datum × List Char) :=
  match afterWord "null" cs with
  | some rest => some (.null, rest)
  | none =>
  match afterWord "true" cs with
  | some rest => some (.bool true, rest)
  | none =>
  match afterWord "false" cs with
  | some rest => some (.bool false, rest)
  | none =>
  match afterWord "NaN" cs with
  | some rest => some (.float (0.0 / 0.0), rest)
  | none =>
  match afterWord "Infinity" cs with
  | some rest => some (.float (Binary64.infinity false), rest)
  | none =>
  match afterWord "-Infinity" cs with
  | some rest => some (.float (Binary64.infinity true), rest)
  | none =>
  match cs with
  | '-' :: rest => unsignedNumber true rest
  | cs => unsignedNumber false cs

mutual

/-- A value at the front of a text. Every nested call takes at least one character, so the length
of the text is enough fuel. -/
def value : Nat → List Char → Option (Datum × List Char)
  | 0, _ => none
  | fuel + 1, cs =>
    match cs with
    | '"' :: rest => do
      let (body, rest) ← textBody (rest.length + 1) rest
      some (.str (String.ofList body), rest)
    | '[' :: rest =>
      match skipBlank rest with
      | ']' :: rest => some (.list [], rest)
      | rest => do
        let (xs, rest) ← items fuel rest
        some (.list xs, rest)
    | '\x7b' :: rest =>
      match skipBlank rest with
      | '\x7d' :: rest => some (.record [], rest)
      | rest => do
        let (fs, rest) ← fields fuel rest
        some (.record (Table.ofList fs).entries, rest)
    | cs => scalar cs

def items : Nat → List Char → Option (List Datum × List Char)
  | 0, _ => none
  | fuel + 1, cs => do
    let (x, rest) ← value fuel cs
    match skipBlank rest with
    | ',' :: rest =>
      let (xs, rest) ← items fuel (skipBlank rest)
      some (x :: xs, rest)
    | ']' :: rest => some ([x], rest)
    | _ => none

def fields : Nat → List Char → Option (List (String × Datum) × List Char)
  | 0, _ => none
  | fuel + 1, cs =>
    match cs with
    | '"' :: rest => do
      let (key, rest) ← textBody (rest.length + 1) rest
      match skipBlank rest with
      | ':' :: rest =>
        let (x, rest) ← value fuel (skipBlank rest)
        match skipBlank rest with
        | ',' :: rest =>
          let (fs, rest) ← fields fuel (skipBlank rest)
          some ((String.ofList key, x) :: fs, rest)
        | '\x7d' :: rest => some ([(String.ofList key, x)], rest)
        | _ => none
      | _ => none
    | _ => none

end

def read (text : String) : Outcome Datum :=
  let cs := skipBlank text.toList
  match value (cs.length + 1) cs with
  | some (d, rest) => if (skipBlank rest).isEmpty then .ok d else .error .malformedJson
  | none => .error .malformedJson

end Json

end BrilKit
