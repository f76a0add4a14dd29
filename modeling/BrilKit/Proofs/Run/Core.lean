import BrilKit.Proofs.Run.Machine

/-!
# The core operations

Whole numbers and truth values with their operations. What all other operations do, calls among
them, is left open.
-/

namespace BrilKit

/-- The values of core programs. -/
inductive Val where
  | int (i : Int)
  | bool (b : Bool)
deriving DecidableEq

namespace Val

def number : Val → Int
  | .int i => i
  | .bool b => if b then 1 else 0

def ofDatum : Datum → Option Val
  | .int i => some (.int i)
  | .bool b => some (.bool b)
  | _ => none

def toDatum : Val → Datum
  | .int i => .int i
  | .bool b => .bool b

@[simp] lemma ofDatum_toDatum (v : Val) : ofDatum v.toDatum = some v := by
  cases v with
  | int i => rfl
  | bool b => rfl

lemma eq_toDatum {d : Datum} {v : Val} (h : ofDatum d = some v) : d = v.toDatum := by
  cases d with
  | int i => cases h; rfl
  | bool b => cases h; rfl
  | _ => cases h

end Val

namespace CoreOp

def arithmetic : String → Option (Int → Int → Option Int)
  | "add" => some fun a b => some (a + b)
  | "sub" => some fun a b => some (a - b)
  | "mul" => some fun a b => some (a * b)
  | "div" => some fun a b => if b = 0 then none else some (Int.fdiv a b)
  | _ => none

def comparison : String → Option (Int → Int → Bool)
  | "eq" => some fun a b => a == b
  | "le" => some fun a b => decide (a ≤ b)
  | "lt" => some fun a b => decide (a < b)
  | "ge" => some fun a b => decide (b ≤ a)
  | "gt" => some fun a b => decide (b < a)
  | "ne" => some fun a b => a != b
  | _ => none

def logic : String → Option (Bool → Bool → Bool)
  | "and" => some (· && ·)
  | "or" => some (· || ·)
  | _ => none

/-- The result of an operation on numbers or truth values, if it has one. -/
def compute (op : String) : List Val → Option Val
  | [a] => if op = "not" then some (.bool (a.number == 0)) else none
  | [a, b] =>
    match arithmetic op, comparison op with
    | some f, _ => (f a.number b.number).map .int
    | none, some r => some (.bool (r a.number b.number))
    | none, none =>
      match a, b with
      | .bool a, .bool b => (logic op).map fun f => .bool (f a b)
      | _, _ => none
  | _ => none

def isCore (op : String) : Bool :=
  (arithmetic op).isSome || (comparison op).isSome || (logic op).isSome || op == "not"

/-- The operation gives a value that depends on its operands only. -/
def isValue (op : String) : Bool := op == "id" || isCore op

/-- The result of a copy, or of an operation that computes as given. -/
def copyOr (compute : String → List Val → Option Val) (op : String) (vs : List Val) :
    Option Val :=
  if op = "id" then
    match vs with
    | [v] => some v
    | _ => none
  else compute op vs

/-- The result of a copy or of an operation on numbers or truth values, if it has one. -/
abbrev eval : String → List Val → Option Val := copyOr compute

def effects : List String := ["print", "nop", "jmp", "br", "ret"]

end CoreOp

/-- An item of a core program. -/
inductive Instr.Core (i : Instr) : Prop where
  | label (l : String) (op : i.op = none) (label : i.label = some l) (dest : i.dest = none)
    (args : i.args = none)
  | const (op : i.op = some "const") (label : i.label = none) (args : i.args = none)
  | value (name : String) (op : i.op = some name) (value : CoreOp.isValue name = true)
    (label : i.label = none)
  | call (op : i.op = some "call") (label : i.label = none)
  | effect (name : String) (op : i.op = some name) (effect : name ∈ CoreOp.effects)
    (label : i.label = none) (dest : i.dest = none)

/-- Core programs, by what their operations compute and by what other operations do. -/
def Meaning.computing {W : Type} (compute : String → List Val → Option Val)
    (other : Behaviour Val W) : Meaning Val W where
  act i operands world :=
    match i.op with
    | none => none
    | some op =>
      if op = "const" then (i.value.bind Val.ofDatum).map fun v => (some v, world)
      else if CoreOp.isCore op then
        (operands.mapM id).bind fun vs => (compute op vs).map fun v => (some v, world)
      else other i operands world
  truth
    | .bool b => some b
    | .int _ => none

/-- Core programs on unbounded numbers. -/
abbrev Meaning.core {W : Type} : Behaviour Val W → Meaning Val W := .computing CoreOp.compute

/-- Constants and operations on numbers or truth values give values, and change nothing else. -/
def Meaning.Steady {V W : Type} (M : Meaning V W) : Prop :=
  ∀ i op os w r, i.op = some op → op = "const" ∨ CoreOp.isCore op = true → M.act i os w = some r →
    ∃ v, r = (some v, w)

namespace Machine

open CoreOp

variable {W : Type} {other : Behaviour Val W}
  {op : String} {i : Instr} {os : List (Option Val)} {w : W}

lemma mapM_id_eq_some {V : Type} {os : List (Option V)} {vs : List V} :
    os.mapM id = some vs ↔ os = vs.map some := by
  induction os generalizing vs with
  | nil => cases vs <;> simp
  | cons o os ih =>
    cases o with
    | none => cases vs <;> simp
    | some v => cases vs <;> simp [Option.bind_eq_some_iff, ih, and_comm]

lemma not_terminator_of_isValue (ho : i.op = some op) (hv : isValue op = true) :
    i.isTerminator = false := by
  have none : ∀ t ∈ terminators, isValue t = false := by decide
  cases ht : i.isTerminator with
  | false => rfl
  | true => simp [none op (by simpa [Instr.isTerminator, ho] using ht)] at hv

end Machine

instance (i : Instr) : Decidable i.Core :=
  decidable_of_iff (i.op = none ∧ i.label.isSome = true ∧ i.dest = none ∧ i.args = none ∨
    i.label = none ∧ (i.op = some "const" ∧ i.args = none ∨
      (∃ op ∈ i.op, CoreOp.isValue op = true) ∨ i.op = some "call" ∨
      (∃ op ∈ i.op, op ∈ CoreOp.effects) ∧ i.dest = none)) <| by
  constructor
  · rintro (⟨op, label, dest, args⟩ |
      ⟨label, ⟨op, args⟩ | ⟨n, op, value⟩ | op | ⟨⟨n, op, effect⟩, dest⟩⟩)
    · obtain ⟨l, label⟩ := Option.isSome_iff_exists.mp label
      exact .label l op label dest args
    · exact .const op label args
    · exact .value n op value label
    · exact .call op label
    · exact .effect n op effect label dest
  · intro h
    cases h <;> simp_all

lemma Instr.Core.of_not_op {i : Instr} (h : i.Core) (ho : i.op = none) :
    i.dest = none ∧ i.args = none := by
  cases h with
  | label _ _ _ dest args => exact ⟨dest, args⟩
  | const op => rw [ho] at op; cases op
  | value _ op => rw [ho] at op; cases op
  | call op => rw [ho] at op; cases op
  | effect _ op => rw [ho] at op; cases op

lemma Instr.Core.dest_of_terminator {i : Instr} (h : i.Core) (ht : i.isTerminator = true) :
    i.dest = none := by
  cases h with
  | label _ _ _ dest => exact dest
  | const op => simp [Instr.isTerminator, op, terminators] at ht
  | value _ op value =>
    rw [Machine.not_terminator_of_isValue op value] at ht
    cases ht
  | call op => simp [Instr.isTerminator, op, terminators] at ht
  | effect _ _ _ _ dest => exact dest

namespace Machine

open CoreOp

variable {W : Type} {other : Behaviour Val W}
  {compute : String → List Val → Option Val} {op : String} {i : Instr} {os : List (Option Val)}
  {w : W}

lemma effect_copy (M : Meaning Val W) : effect M "id" i os w =
    ((os.mapM id).bind (copyOr compute "id")).map fun v => (some v, w, []) := by
  cases os with
  | nil => rfl
  | cons o os =>
    cases o with
    | none => simp [effect]
    | some v =>
      cases os with
      | nil => rfl
      | cons o' os => cases hm : os.mapM id <;> cases o' <;> simp [effect, copyOr, hm]

lemma effect_act {V : Type} (M : Meaning V W) {os : List (Option V)}
    (hop : op = "const" ∨ isCore op = true) :
    effect M op i os w = (M.act i os w).map fun r => (r.1, r.2, []) := by
  have none : ∀ n ∈ ["id", "print", "call"], ¬ (n = "const" ∨ isCore n = true) := by decide
  unfold effect
  split
  · exact absurd hop (none "id" (by simp))
  · exact absurd hop (none "print" (by simp))
  · exact absurd hop (none "call" (by simp))
  · cases M.act i os w <;> rfl

lemma effect_const (ho : i.op = some "const") :
    effect (.computing compute other) "const" i os w =
      (i.value.bind Val.ofDatum).map fun v => (some v, w, []) := by
  rw [effect_act _ (.inl rfl)]
  simp [Meaning.computing, ho, Function.comp_def]

/-- What a copy or an operation on numbers or truth values does. -/
lemma effect_value (ho : i.op = some op) (hv : isValue op = true) :
    effect (.computing compute other) op i os w =
      ((os.mapM id).bind (copyOr compute op)).map fun v => (some v, w, []) := by
  by_cases copy : op = "id"
  · subst copy
    exact effect_copy _
  · have core : isCore op = true := by simpa [isValue, copy] using hv
    have hconst : op ≠ "const" := by rintro rfl; exact absurd core (by decide)
    have ev : copyOr compute op = compute op := funext fun vs => if_neg copy
    rw [effect_act _ (.inr core), ev]
    simp [Meaning.computing, ho, hconst, core, Option.map_bind, Function.comp_def]

/-- An instruction with a result that is no call gives it a value, and shows nothing. -/
lemma effect_of_dest {V : Type} {M : Meaning V W} (steady : M.Steady) {d : String} (core : i.Core)
    (quiet : i.op ≠ some "call") (hd : i.dest = some d) :
    ∃ op, i.op = some op ∧ op ≠ "phi" ∧ i.isTerminator = false ∧
      ∀ os w r, effect M op i.shape os w = some r → ∃ v, r = (some v, w, []) := by
  have acts : ∀ {op}, i.op = some op → op = "const" ∨ isCore op = true →
      ∀ os w r, effect M op i.shape os w = some r → ∃ v, r = (some v, w, []) := by
    intro op ho hop os w r h
    rw [effect_act _ hop] at h
    obtain ⟨r, hr, rfl⟩ := Option.map_eq_some_iff.mp h
    obtain ⟨v, rfl⟩ := steady i.shape op os w r ho hop hr
    exact ⟨v, rfl⟩
  cases core with
  | label _ _ _ dest => rw [dest] at hd; cases hd
  | const op =>
    exact ⟨"const", op, by decide, by simp [Instr.isTerminator, op, terminators], acts op (.inl rfl)⟩
  | value name op value =>
    refine ⟨name, op, ?_, not_terminator_of_isValue op value, ?_⟩
    · rintro rfl
      exact absurd value (by decide)
    · by_cases copy : name = "id"
      · subst copy
        intro os w r h
        simp only [effect] at h
        split at h
        · exact ⟨_, (Option.some.inj h).symm⟩
        · cases h
      · exact acts op (.inr (by simpa [isValue, copy] using value))
  | call op => exact absurd op quiet
  | effect _ _ _ _ dest => rw [dest] at hd; cases hd

end Machine

end BrilKit
