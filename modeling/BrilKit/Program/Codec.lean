import BrilKit.Data.Json.Reader
import BrilKit.Data.Json.Writer
import BrilKit.Program.Basic

/-!
# Programs as data

Reading a program out of a data tree and writing it back. Reading fails only where a record or a
list is needed and something else is there; a field of an unexpected form is kept as it is.
Written records list their fields in ascending order.
-/

namespace BrilKit

def textsOf? (xs : List Datum) : Option (List String) :=
  xs.mapM fun
    | .str s => some s
    | _ => none

def ofTexts (ss : List String) : Datum := .list (ss.map .str)

def recordOf (fields : List (String × Option Datum)) (extra : List (String × Datum)) : Datum :=
  let present := fields.filterMap fun f => f.2.map fun d => (f.1, d)
  .record ((present ++ extra).mergeSort fun a b => decide (a.1 ≤ b.1))

namespace Instr

def takeField (i : Instr) (field : String × Datum) : Instr :=
  let other := { i with extra := i.extra ++ [field] }
  match field with
  | ("op", .str s) => { i with op := some s }
  | ("dest", .str s) => { i with dest := some s }
  | ("label", .str s) => { i with label := some s }
  | ("type", d) => { i with type := some (.ofDatum d) }
  | ("value", d) => { i with value := some d }
  | ("args", .list xs) =>
    match textsOf? xs with
    | some ss => { i with args := some ss }
    | none => other
  | ("funcs", .list xs) =>
    match textsOf? xs with
    | some ss => { i with funcs := some ss }
    | none => other
  | ("labels", .list xs) =>
    match textsOf? xs with
    | some ss => { i with labels := some ss }
    | none => other
  | _ => other

def ofDatum : Datum → Outcome Instr
  | .record fs => .ok (fs.foldl takeField {})
  | _ => .error .kind

def toDatum (i : Instr) : Datum :=
  recordOf
    [("args", i.args.map ofTexts), ("dest", i.dest.map .str), ("funcs", i.funcs.map ofTexts),
      ("label", i.label.map .str), ("labels", i.labels.map ofTexts), ("op", i.op.map .str),
      ("type", i.type.map Ty.toDatum), ("value", i.value)] i.extra

end Instr

def blockOfDatum : Datum → Outcome Block
  | .list xs => xs.mapM Instr.ofDatum
  | _ => .error .kind

def blockToDatum (b : Block) : Datum := .list (b.map Instr.toDatum)

namespace Param

def takeField (p : Param) (field : String × Datum) : Param :=
  match field with
  | ("name", .str s) => { p with name := some s }
  | ("type", d) => { p with type := some (.ofDatum d) }
  | _ => { p with extra := p.extra ++ [field] }

def ofDatum : Datum → Outcome Param
  | .record fs => .ok (fs.foldl takeField {})
  | _ => .error .kind

def toDatum (p : Param) : Datum :=
  recordOf [("name", p.name.map .str), ("type", p.type.map Ty.toDatum)] p.extra

end Param

namespace Func

def takeField (f : Func) (field : String × Datum) : Outcome Func :=
  match field with
  | ("name", .str s) => .ok { f with name := some s }
  | ("type", d) => .ok { f with type := some (.ofDatum d) }
  | ("args", .list xs) => do return { f with args := some (← xs.mapM Param.ofDatum) }
  | ("instrs", d) => do return { f with instrs := some (← blockOfDatum d) }
  | _ => .ok { f with extra := f.extra ++ [field] }

def ofDatum : Datum → Outcome Func
  | .record fs => fs.foldlM takeField {}
  | _ => .error .kind

def toDatum (f : Func) : Datum :=
  recordOf
    [("args", f.args.map fun ps => .list (ps.map Param.toDatum)),
      ("instrs", f.instrs.map blockToDatum), ("name", f.name.map .str),
      ("type", f.type.map Ty.toDatum)] f.extra

end Func

namespace Struct

def takeField (s : Struct) (field : String × Datum) : Outcome Struct :=
  match field with
  | ("name", .str n) => .ok { s with name := some n }
  | ("mbrs", .list xs) => do return { s with members := some (← xs.mapM Param.ofDatum) }
  | _ => .ok { s with extra := s.extra ++ [field] }

def ofDatum : Datum → Outcome Struct
  | .record fs => fs.foldlM takeField {}
  | _ => .error .kind

def toDatum (s : Struct) : Datum :=
  recordOf
    [("mbrs", s.members.map fun ps => .list (ps.map Param.toDatum)), ("name", s.name.map .str)]
    s.extra

end Struct

namespace Program

def takeField (p : Program) (field : String × Datum) : Outcome Program :=
  match field with
  | ("functions", .list xs) => do return { p with functions := some (← xs.mapM Func.ofDatum) }
  | ("functions", _) => .error .kind
  | ("structs", .list xs) => do return { p with structs := some (← xs.mapM Struct.ofDatum) }
  | _ => .ok { p with extra := p.extra ++ [field] }

def ofDatum : Datum → Outcome Program
  | .record fs => fs.foldlM takeField {}
  | _ => .error .kind

def toDatum (p : Program) : Datum :=
  recordOf
    [("functions", p.functions.map fun fs => .list (fs.map Func.toDatum)),
      ("structs", p.structs.map fun ss => .list (ss.map Struct.toDatum))] p.extra

def ofJson (text : String) : Outcome Program := do ofDatum (← Json.read text)

def toJson (p : Program) : String := Json.pretty p.toDatum

end Program

end BrilKit
