import BrilKit.Data.Decimal
import BrilKit.Data.Quoted
import BrilKit.Data.Table

/-!
# Data trees

Programs are exchanged as trees of numbers, texts, lists and records. `Datum` is such a tree. The
module gives its equality as data (whole numbers, doubles and truth values compare by their
numeric value), its truth value and its text.
-/

namespace BrilKit

/-- A tree of data. The fields of a record keep their order. -/
inductive Datum where
  | null
  | bool (b : Bool)
  | int (i : Int)
  | float (x : Float)
  | str (s : String)
  | list (xs : List Datum)
  | record (fields : List (String × Datum))
deriving Repr, Inhabited

namespace Datum

mutual

def identical : Datum → Datum → Bool
  | .null, .null => true
  | .bool a, .bool b => a == b
  | .int a, .int b => a == b
  | .float a, .float b => decide (a = b)
  | .str a, .str b => a == b
  | .list as, .list bs => identicalList as bs
  | .record as, .record bs => identicalFields as bs
  | _, _ => false

def identicalList : List Datum → List Datum → Bool
  | [], [] => true
  | a :: as, b :: bs => identical a b && identicalList as bs
  | _, _ => false

def identicalFields : List (String × Datum) → List (String × Datum) → Bool
  | [], [] => true
  | (k, a) :: as, (l, b) :: bs => k == l && identical a b && identicalFields as bs
  | _, _ => false

end

mutual

theorem identical_iff : ∀ a b : Datum, identical a b = true ↔ a = b
  | .null, b => by cases b <;> simp [identical]
  | .bool _, b => by cases b <;> simp [identical]
  | .int _, b => by cases b <;> simp [identical]
  | .float _, b => by cases b <;> simp [identical]
  | .str _, b => by cases b <;> simp [identical]
  | .list as, b => by cases b <;> simp [identical, identicalList_iff as]
  | .record as, b => by cases b <;> simp [identical, identicalFields_iff as]

theorem identicalList_iff : ∀ as bs : List Datum, identicalList as bs = true ↔ as = bs
  | [], bs => by cases bs <;> simp [identicalList]
  | a :: as, bs => by
    cases bs with
    | nil => simp [identicalList]
    | cons b bs => simp [identicalList, identical_iff a b, identicalList_iff as bs]

theorem identicalFields_iff :
    ∀ as bs : List (String × Datum), identicalFields as bs = true ↔ as = bs
  | [], bs => by cases bs <;> simp [identicalFields]
  | (k, a) :: as, bs => by
    cases bs with
    | nil => simp [identicalFields]
    | cons b bs =>
      obtain ⟨l, b⟩ := b
      simp [identicalFields, identical_iff a b, identicalFields_iff as bs]

end

instance : DecidableEq Datum := fun a b => decidable_of_iff _ (identical_iff a b)

def toInt? : Datum → Option Int
  | .int i => some i
  | .bool b => some (if b then 1 else 0)
  | _ => none

/-- Whether two numbers have the same value; a double that is not a number equals none. -/
def numEqual : Datum → Datum → Bool
  | .float x, .float y => x == y
  | .float x, d =>
    match d.toInt? with
    | some i => Binary64.compareWithInt x i == some .eq
    | none => false
  | d, .float x =>
    match d.toInt? with
    | some i => Binary64.compareWithInt x i == some .eq
    | none => false
  | c, d =>
    match c.toInt?, d.toInt? with
    | some i, some j => i == j
    | _, _ => false

mutual

/-- Equality as data: numbers by value, lists item by item, records field by field in any order.
An item is always equal to itself. -/
def same : Datum → Datum → Bool
  | .null, .null => true
  | .str a, .str b => a == b
  | .list as, .list bs => sameList as bs
  | .record as, .record bs => as.length == bs.length && sameFields as bs
  | .float x, .float y => x == y || decide (x = y)
  | c, d => numEqual c d

def sameList : List Datum → List Datum → Bool
  | [], [] => true
  | a :: as, b :: bs => same a b && sameList as bs
  | _, _ => false

def sameFields : List (String × Datum) → List (String × Datum) → Bool
  | [], _ => true
  | (k, a) :: as, bs =>
    (match bs.lookup k with
      | some b => same a b
      | none => false) && sameFields as bs

end

/-- Equality of two values that are compared on their own: as `same`, but a double that is not a
number differs from itself. -/
def equal : Datum → Datum → Bool
  | .float x, .float y => x == y
  | c, d => same c d

def truth : Datum → Bool
  | .null => false
  | .bool b => b
  | .int i => i != 0
  | .float x => !(x == 0.0)
  | .str s => s != ""
  | .list xs => !xs.isEmpty
  | .record fs => !fs.isEmpty

def boolText (b : Bool) : String := if b then "True" else "False"

mutual

def quoted : Datum → String
  | .null => "None"
  | .bool b => boolText b
  | .int i => toString i
  | .float x => Decimal.ofFloat x
  | .str s => Quoted.quote s
  | .list xs => "[" ++ ", ".intercalate (quotedList xs) ++ "]"
  | .record fs => "\x7b" ++ ", ".intercalate (quotedFields fs) ++ "\x7d"

def quotedList : List Datum → List String
  | [] => []
  | x :: xs => quoted x :: quotedList xs

def quotedFields : List (String × Datum) → List String
  | [] => []
  | (k, x) :: fs => (Quoted.quote k ++ ": " ++ quoted x) :: quotedFields fs

end

def text : Datum → String
  | .str s => s
  | d => d.quoted

def isRecord : Datum → Bool
  | .record _ => true
  | _ => false

end Datum

end BrilKit
