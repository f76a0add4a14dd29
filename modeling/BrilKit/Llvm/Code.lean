import BrilKit.Llvm.Frame

/-!
# Emitted code

Code is a sequence of pieces of text. Among them the names of variables are marked, those that are
given a value and those that are read, and so are the names of the blocks that control goes to.
-/

namespace BrilKit

namespace Llvm

inductive Piece where
  | text (s : String)
  | block (label : String)
  | result (x : String)
  | operand (x : String)
deriving DecidableEq

def Piece.render : Piece → String
  | .text s => s
  | .block label => "%" ++ label
  | .result x => "%" ++ x
  | .operand x => "%" ++ x

abbrev Code := List Piece

namespace Code

def render (code : Code) : String := String.join (code.map Piece.render)

def line (code : Code) : Code := .text "  " :: code ++ [.text "\n"]

def assign (x : String) (code : Code) : Code := line (.result x :: .text " = " :: code)

def joinWith (between : String) (parts : List Code) : Code := [.text between].intercalate parts

end Code

structure FuncCode where
  result : String
  name : String
  /-- The parameters, each with the text of its type in front. -/
  params : List (String × String)
  body : Code

/-- A function as it is written; its name gets two underscores in front. -/
def FuncCode.render (f : FuncCode) : String :=
  funcHead f.result ("__" ++ f.name) (", ".intercalate (f.params.map fun p => p.1 ++ " %" ++ p.2))
    ++ f.body.render ++ funcFoot

structure Module where
  structs : String
  funcs : List FuncCode
  entry : String

def Module.render (m : Module) : String :=
  m.structs ++ String.join (m.funcs.map FuncCode.render) ++ m.entry

end Llvm

end BrilKit
