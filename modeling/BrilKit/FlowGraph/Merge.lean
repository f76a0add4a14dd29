import BrilKit.Data.Datum
import BrilKit.Data.Members
import BrilKit.Fault

/-!
# Merging facts from several edges

Facts about a block come in over its edges, one set or table for each. The functions here combine
them: by union, by intersection, and for tables by keeping what they agree on.
-/

namespace BrilKit

namespace Merge

/-- The intersection of a family of sets, begun with the first that has members. With
`skipEmpty`, sets without members do not take part. -/
def meetSets {α : Type} [BEq α] (skipEmpty : Bool) (sets : List (List α)) : List α :=
  let start := (sets.find? fun s => !s.isEmpty).getD []
  let others := if skipEmpty then sets.filter fun s => !s.isEmpty else sets
  others.foldl Members.meet start

/-- Whether a value can be a member of a set: lists and records cannot. -/
def isPlain : Datum → Bool
  | .list _ => false
  | .record _ => false
  | _ => true

/-- The items that two sets of items have in common, by names and equal values. Of two equal items
the one from the smaller set is kept, that of the second set when both have the same size. -/
def meetItems {α : Type} (same : α → α → Bool) (s t : List (String × α)) : List (String × α) :=
  let sameItem (a b : String × α) : Bool := a.1 == b.1 && same a.2 b.2
  if s.length < t.length then s.filter fun a => t.any (sameItem a)
  else t.filter fun a => s.any (sameItem a)

def agreedBy {α : Type} (same : α → α → Bool) : List (Table String α) → Table String α
  | [] => .empty
  | t :: ts => ⟨ts.foldl (fun s u => meetItems same s u.entries) t.entries⟩

/-- The items that all tables have, and for a name that only some tables have the value in the
first of those. With `skipEmpty`, tables without entries do not take part. -/
def settledBy {α : Type} (same : α → α → Bool) (skipEmpty : Bool)
    (tables : List (Table String α)) : Table String α :=
  let start := (tables.find? fun t => !t.isEmpty).getD .empty
  let others := if skipEmpty then tables.filter fun t => !t.isEmpty else tables
  let items := others.foldl (fun s u => meetItems same s u.entries) start.entries
  let common := others.foldl (fun ks u => Members.meet ks u.keys) start.keys
  let all := others.foldl (fun ks u => Members.addAll ks u.keys) start.keys
  let single := Members.without all common
  ⟨items ++ single.filterMap fun k =>
    (tables.findSome? fun t => t.get? k).map fun v => (k, v)⟩

def checkPlain (tables : List (Table String Datum)) : Outcome Unit :=
  Outcome.guard (tables.all fun t => t.values.all isPlain) .kind

def agreed (tables : List (Table String Datum)) : Outcome (Table String Datum) := do
  checkPlain tables
  return agreedBy Datum.same tables

/-- `settledBy` for tables of data. -/
def settled (skipEmpty : Bool) (tables : List (Table String Datum)) :
    Outcome (Table String Datum) := do
  checkPlain tables
  return settledBy Datum.same skipEmpty tables

end Merge

end BrilKit
