import BrilKit.Program.Basic

/-!
# Sample programs

Functions of a regular shape and of any size, on which passes can be tried: a chain of arithmetic,
a row of branches that meet again, a loop with invariant computations, and a run of stores and
loads through pointers.
-/

namespace BrilKit

namespace Sample

@[simp] def whole (dest : String) (n : Int) : Instr :=
  { op := some "const", dest := some dest, type := some .int, value := some (.int n) }

@[simp] def truth (dest : String) (b : Bool) : Instr :=
  { op := some "const", dest := some dest, type := some .bool, value := some (.bool b) }

@[simp] def compute (type : Ty) (op dest : String) (args : List String) : Instr :=
  { op := some op, dest := some dest, type := some type, args := some args }

@[simp] def effect (op : String) (args : List String) : Instr := { op := some op, args := some args }

@[simp] def plain (op : String) : Instr := { op := some op }

@[simp] def branch (condition yes no : String) : Instr :=
  { op := some "br", args := some [condition], labels := some [yes, no] }

@[simp] def wholeParam (name : String) : Param := { name := some name, type := some .int }

@[simp] def truthParam (name : String) : Param := { name := some name, type := some .bool }

def cycled (ops : List String) (i : Nat) : String := (ops[i % ops.length]?).getD ""

/-- A step of the chain of arithmetic: an operation, a comparison, and what follows from it. -/
def arithmeticStep (i : Nat) : List Instr :=
  [ compute .int (cycled ["add", "sub", "mul", "div"] i) "a" ["a", "b"],
    compute .bool (cycled ["eq", "lt", "gt", "le", "ge", "ne"] i) "c" ["a", "b"],
    compute .bool (cycled ["and", "or"] i) "t" ["t", "c"],
    compute .bool "not" "f" ["t"],
    compute .int "id" "d" ["a"] ]

def arithmetic (n : Nat) (name : String) : Func :=
  { name := some name
    instrs := some ([whole "a" 1, whole "b" 2, truth "t" true, truth "f" false]
      ++ (List.range n).flatMap arithmeticStep
      ++ [plain "nop", effect "print" ["a"], plain "ret"]) }

def diamond (i : Nat) : List Instr :=
  let next := "d" ++ toString (i + 1)
  let yes := "then" ++ toString i
  let no := "else" ++ toString i
  [ .labelled ("d" ++ toString i), truth "cond" true, branch "cond" yes no,
    .labelled yes, compute .int "add" "x" ["x", "one"], .jump next,
    .labelled no, compute .int "sub" "x" ["x", "one"], .jump next ]

def diamonds (n : Nat) (withParam : Bool) (name : String) : Func :=
  { name := some name
    args := if withParam then some [wholeParam "p"] else none
    instrs := some ([whole "x" 0, whole "one" 1, .jump "d0"]
      ++ (List.range n).flatMap diamond
      ++ [.labelled ("d" ++ toString n), compute .int "id" "y" ["x"], effect "print" ["x"],
          plain "ret"]) }

def invariant (k : Nat) : List Instr :=
  let inv := "inv" ++ toString k
  [compute .int "add" inv ["n", "one"], compute .int "add" "acc" ["acc", inv]]

def counting (n : Nat) (withParam : Bool) (name : String) : Func :=
  { name := some name
    args := if withParam then some [wholeParam "p"] else none
    instrs := some ([whole "n" 10, whole "i" 0, whole "one" 1, whole "acc" 0,
        .labelled "hdr", compute .bool "lt" "c" ["i", "n"], branch "c" "body" "exit",
        .labelled "body"]
      ++ (List.range n).flatMap invariant
      ++ [compute .int "add" "i" ["i", "one"], .jump "hdr", .labelled "exit",
          effect "print" ["acc"], plain "ret"]) }

/-- Two stores to a place of which the first is lost, a load, and a step to the next place. -/
def access (i : Nat) : List Instr :=
  [ effect "store" ["q", "one"], effect "store" ["q", "one"],
    compute .int "load" ("v" ++ toString i) ["q"],
    compute (.ptr .int) "ptradd" "q" ["q", "one"] ]

def memory (n : Nat) (name : String) : Func :=
  { name := some name
    args := some [{ name := some "ap", type := some (.ptr .int) }]
    instrs := some ([whole "sz" 4, whole "one" 1, compute (.ptr .int) "alloc" "p" ["sz"],
        compute (.ptr .int) "id" "q" ["p"], compute (.ptr .int) "load" "pp" ["ap"],
        { compute (.ptr .int) "call" "cp" ["p"] with funcs := some ["f"] }]
      ++ (List.range n).flatMap access
      ++ [effect "store" ["pp", "one"], compute .int "load" "vz" ["cp"], effect "free" ["p"],
          plain "ret"]) }

def link (i : Nat) : String := "v" ++ toString i

/-- A chain of copies that stands in front of the constant at its end: the type of each result is
known only when that of the next one is. -/
def copies (n : Nat) (name : String) : Func :=
  { name := some name
    instrs := some ([.jump "l2", .labelled "l1"]
      ++ (List.range n).map (fun i => compute .int "id" (link i) [link (i + 1)])
      ++ [plain "ret", .labelled "l2", whole (link n) 0]) }

def untyped (f : Func) : Func :=
  { f with instrs := f.instrs.map (List.map fun i => { i with type := none }) }

def framed (f : Func) : Func :=
  { f with instrs := f.instrs.map fun is =>
      [.labelled "top", .labelled "in0"] ++ is ++ [.labelled "end"] }

def returning (f : Func) : Func :=
  { f with instrs := f.instrs.map fun is => .labelled "top" :: is ++ [.jump "top"] }

end Sample

end BrilKit
