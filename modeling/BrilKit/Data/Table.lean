/-!
# Ordered tables

A `Table` is a finite map that lists its entries in the order in which their keys were first put.
Putting a key again replaces its value and keeps its place.
-/

namespace BrilKit

/-- A finite map with its entries in the order in which their keys were first put. -/
structure Table (κ : Type) (α : Type) where
  entries : List (κ × α)
deriving Repr, DecidableEq

namespace Table

variable {κ α β : Type}

def empty : Table κ α := ⟨[]⟩

instance : Inhabited (Table κ α) := ⟨empty⟩

def keys (t : Table κ α) : List κ := t.entries.map Prod.fst

def values (t : Table κ α) : List α := t.entries.map Prod.snd

def size (t : Table κ α) : Nat := t.entries.length

def isEmpty (t : Table κ α) : Bool := t.entries.isEmpty

def map (f : α → β) (t : Table κ α) : Table κ β := ⟨t.entries.map fun e => (e.1, f e.2)⟩

variable [BEq κ]

def get? (t : Table κ α) (k : κ) : Option α := t.entries.lookup k

def getD (t : Table κ α) (k : κ) (d : α) : α := (t.get? k).getD d

def has (t : Table κ α) (k : κ) : Bool := (t.get? k).isSome

def putEntry (k : κ) (a : α) : List (κ × α) → List (κ × α)
  | [] => [(k, a)]
  | e :: es => if e.1 == k then (e.1, a) :: es else e :: putEntry k a es

/-- Set the value at a key; a new key goes last, an old one keeps its place. -/
def put (t : Table κ α) (k : κ) (a : α) : Table κ α := ⟨putEntry k a t.entries⟩

def erase (t : Table κ α) (k : κ) : Table κ α := ⟨t.entries.filter fun e => !(e.1 == k)⟩

def alter (t : Table κ α) (k : κ) (f : Option α → α) : Table κ α := t.put k (f (t.get? k))

def ofList (es : List (κ × α)) : Table κ α := es.foldl (fun t e => t.put e.1 e.2) empty

/-- Whether two tables have the same keys with values related by `r`. -/
def sameBy (r : α → α → Bool) (t u : Table κ α) : Bool :=
  t.size == u.size && t.entries.all fun e =>
    match u.get? e.1 with
    | some b => r e.2 b
    | none => false

end Table

end BrilKit
