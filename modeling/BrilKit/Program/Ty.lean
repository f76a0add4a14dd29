import BrilKit.Data.Datum

/-!
# Types of variables and functions

A type is a name such as `int`, or a name applied to a type such as a pointer to `int`. Programs
may also hold something else where a type belongs; it is kept as it is.
-/

namespace BrilKit

inductive Ty where
  | name (s : String)
  | app (key : String) (arg : Ty)
  | other (d : Datum)
deriving Repr, DecidableEq, Inhabited

namespace Ty

abbrev int : Ty := .name "int"

abbrev bool : Ty := .name "bool"

abbrev ptr (t : Ty) : Ty := .app "ptr" t

/-- The type that a datum denotes: a text is a name, a record of one field an application. -/
def ofDatum : Datum → Ty
  | .str s => .name s
  | .record [(k, d)] => .app k (ofDatum d)
  | d => .other d

def toDatum : Ty → Datum
  | .name s => .str s
  | .app k t => .record [(k, t.toDatum)]
  | .other d => d

def same (t u : Ty) : Bool := t.toDatum.same u.toDatum

def isRecord (t : Ty) : Bool := t.toDatum.isRecord

def text (t : Ty) : String := t.toDatum.text

end Ty

end BrilKit
