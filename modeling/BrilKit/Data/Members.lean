/-!
# Lists read as sets

Analyses compute finite sets of names and of block numbers. They are kept as lists without
repetition, compared by their members, and listed in ascending order where they are shown.
-/

namespace BrilKit

namespace Members

variable {α : Type} [BEq α]

def add (s : List α) (a : α) : List α := if s.contains a then s else s ++ [a]

def addAll (s t : List α) : List α := t.foldl add s

def ofList (xs : List α) : List α := addAll [] xs

def without (s t : List α) : List α := s.filter fun a => !t.contains a

def meet (s t : List α) : List α := s.filter fun a => t.contains a

def unionAll (ss : List (List α)) : List α := ss.foldl addAll []

def same (s t : List α) : Bool := s.all t.contains && t.all s.contains

end Members

def sortNames (s : List String) : List String := s.mergeSort fun a b => decide (a ≤ b)

def sortNats (s : List Nat) : List Nat := s.mergeSort fun a b => decide (a ≤ b)

end BrilKit
