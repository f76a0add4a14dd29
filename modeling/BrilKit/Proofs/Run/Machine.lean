import BrilKit.Sample.Programs
import Mathlib.Data.List.Basic
import Mathlib.Tactic.Lemma

/-!
# Runs of a function

A function runs on a machine whose state is the rest of the body, the values of the variables, a
world, and the last two labels that control went over. A run is observed through its trace of
labels, prints and calls, and through how it ends.
-/

namespace BrilKit

open List

namespace Instr

def shape (i : Instr) : Instr := { i with args := none, dest := i.dest.map fun _ => "" }

section Shape

variable {i i' : Instr} (h : i'.shape = i.shape)
include h

lemma op_of_shape : i'.op = i.op := by
  have e := congrArg Instr.op h
  exact e

lemma label_of_shape : i'.label = i.label := by
  have e := congrArg Instr.label h
  exact e

lemma labels_of_shape : i'.labels = i.labels := by
  have e := congrArg Instr.labels h
  exact e

lemma dest_isSome_of_shape : i'.dest.isSome = i.dest.isSome := by
  have e := congrArg (fun j => j.dest.isSome) h
  simpa [shape] using e

lemma dest_of_shape (hd : i.dest = none) : i'.dest = none := by
  simpa [hd] using dest_isSome_of_shape h

end Shape

def Branches (i : Instr) : Prop := i.op = some "jmp" ∨ i.op = some "br"

lemma isTerminator_of_branches {i : Instr} (h : i.Branches) : i.isTerminator = true := by
  obtain h | h := h <;> simp [isTerminator, h, terminators]

lemma branches_of_isTerminator {i : Instr} {op : String} (ho : i.op = some op)
    (h : i.isTerminator = true) (hr : op ≠ "ret") : i.Branches := by
  simp only [isTerminator, ho, Option.any_some, terminators, contains_iff_mem,
    mem_cons, not_mem_nil, or_false] at h
  obtain rfl | rfl | rfl := h
  · exact .inr ho
  · exact .inl ho
  · exact absurd rfl hr

end Instr

/-- What operations do on operands, some of which may be undefined, in a world: the result, if there
is one, and the world behind it, or nothing when the operation fails. -/
abbrev Behaviour (V W : Type) := Instr → List (Option V) → W → Option (Option V × W)

/-- What programs mean. -/
structure Meaning (V W : Type) where
  act : Behaviour V W
  /-- The truth value that a value stands for. -/
  truth : V → Option Bool

/-- Something to be seen of a run. -/
inductive Event (V : Type) where
  /-- Control goes over a label. -/
  | enter (label : String)
  /-- Values are printed. -/
  | print (values : List V)
  /-- Functions are called with arguments. -/
  | call (funcs : List String) (values : List V)
deriving DecidableEq

/-- How far a run has come. -/
inductive Status (V W : Type) where
  | running
  /-- The function has returned, possibly with a value. -/
  | returned (value : Option V) (world : W)
  /-- A dynamic error has stopped the run. -/
  | failed
deriving DecidableEq

namespace Machine

variable {V W : Type} {x l : String} {body : List Instr} {ps : List Param}

abbrev Env (V : Type) := String → Option V

/-- The environment with another value of one variable, or none. -/
def Env.set (e : Env V) (x : String) (v : Option V) : Env V := fun y => if y = x then v else e y

@[simp] lemma Env.set_same (e : Env V) (x : String) (v : Option V) : e.set x v x = v := by
  simp [Env.set]

lemma Env.set_other {e : Env V} {y : String} {v : Option V} (h : y ≠ x) : e.set x v y = e y := by
  simp [Env.set, h]

/-- The state of a run. -/
structure State (V W : Type) where
  /-- The items still ahead. -/
  rest : List Instr
  env : Env V
  world : W
  /-- The label that control went over last. -/
  label : Option String := none
  /-- The label before that one. -/
  previous : Option String := none

/-- What a step leads to. -/
inductive Move (V W : Type) where
  | go (state : State V W) (events : List (Event V))
  | stop (value : Option V) (world : W)
  | fail

def jumpTo (body : List Instr) (s : State V W) (l : String) : Move V W :=
  match body.dropWhile fun i => i.label != some l with
  | [] => .fail
  | rest => .go { s with rest } []

lemma jumpTo_found {rest : List Instr} {s : State V W} {i : Instr}
    (h : body.dropWhile (fun i => i.label != some l) = i :: rest) :
    jumpTo body s l = .go { s with rest := i :: rest } [] := by
  simp [jumpTo, h]

lemma mem_of_found {rest : List Instr} (h : body.dropWhile (fun i => i.label != some l) = rest) :
    ∀ i ∈ rest, i ∈ body :=
  fun _ hi => (dropWhile_sublist _).subset (h ▸ hi)

lemma jumpTo_missing {s : State V W} (h : body.dropWhile (fun i => i.label != some l) = []) :
    jumpTo body s l = .fail := by
  simp [jumpTo, h]

/-- Bind the result of an operation; a result that is asked for must be there. -/
def bind (s : State V W) (dest : Option String) (result : Option V) (world : W)
    (events : List (Event V)) : Move V W :=
  match dest, result with
  | some d, some v => .go { s with env := s.env.set d (some v), world } events
  | some _, none => .fail
  | none, _ => .go { s with world } events

/-- The operand that a phi selects: that of the label before the last one. -/
def selected (e : Env V) (i : Instr) (l : String) : Option V :=
  (((i.labels.getD []).zip i.uses).lookup l).bind e

/-- A phi. A selected operand without a value leaves the result without one. -/
def phi (s : State V W) (i : Instr) : Move V W :=
  if (i.labels.getD []).length = i.uses.length then
    match s.previous, i.dest with
    | some l, some d => .go { s with env := s.env.set d (selected s.env i l) } []
    | _, _ => .fail
  else .fail

/-- What an operation that control passes through does, from its shape and operands: its result,
the world behind it and what is seen of it. Copies, prints and calls need all their operands. -/
def effect (M : Meaning V W) (op : String) (shape : Instr) (operands : List (Option V))
    (world : W) : Option (Option V × W × List (Event V)) :=
  match op with
  | "id" =>
    match operands with
    | [some v] => some (some v, world, [])
    | _ => none
  | "print" => do
    let vs ← operands.mapM id
    some (none, world, [.print vs])
  | "call" => do
    let vs ← operands.mapM id
    let (result, world) ← M.act shape operands world
    some (result, world, [.call (shape.funcs.getD []) vs])
  | _ => do
    let (result, world) ← M.act shape operands world
    some (result, world, [])

/-- Where a jump or a branch leads: a branch to its first label if its operand is true, else to the
second. -/
def destination (M : Meaning V W) (op : String) (labels : List String)
    (operands : List (Option V)) : Option String :=
  match op, operands with
  | "jmp", [] => labels[0]?
  | "br", [some v] => (M.truth v).bind fun b => labels[if b then 0 else 1]?
  | _, _ => none

lemma destination_mem {M : Meaning V W} {op : String} {labels : List String}
    {operands : List (Option V)} (h : destination M op labels operands = some l) : l ∈ labels := by
  unfold destination at h
  split at h
  · exact mem_of_getElem? h
  · obtain ⟨b, _, hb⟩ := Option.bind_eq_some_iff.mp h
    exact mem_of_getElem? hb
  · cases h

def leave (operands : List (Option V)) (world : W) : Move V W :=
  match operands with
  | [] => .stop none world
  | [some v] => .stop (some v) world
  | _ => .fail

def transfer (M : Meaning V W) (body : List Instr) (s : State V W) (i : Instr) (op : String) :
    Move V W :=
  if i.dest.isSome then .fail
  else if op = "ret" then leave (i.uses.map s.env) s.world
  else
    match destination M op (i.labels.getD []) (i.uses.map s.env) with
    | some l => jumpTo body s l
    | none => .fail

/-- Carry out an operation; the state is the one behind it. -/
def perform (M : Meaning V W) (body : List Instr) (s : State V W) (i : Instr) (op : String) :
    Move V W :=
  if op = "phi" then phi s i
  else if terminators.contains op then transfer M body s i op
  else
    match effect M op i.shape (i.uses.map s.env) s.world with
    | some (result, world, events) => bind s i.dest result world events
    | none => .fail

def pass (s : State V W) (i : Instr) : Move V W :=
  match i.label with
  | some l => .go { s with label := some l, previous := s.label } [.enter l]
  | none => .go s []

/-- One step of a run. Behind the last item a function returns without a value. -/
def step (M : Meaning V W) (body : List Instr) (s : State V W) : Move V W :=
  match s.rest with
  | [] => .stop none s.world
  | i :: rest =>
    match i.op with
    | some op => perform M body { s with rest } i op
    | none => pass { s with rest } i

section Step

variable {M : Meaning V W} {B rest : List Instr} {s : State V W} {i : Instr} {l op : String}

lemma step_label (h : s.rest = i :: rest) (ho : i.op = none) (hl : i.label = some l) :
    step M B s = .go { s with rest, label := some l, previous := s.label } [.enter l] := by
  simp [step, h, ho, pass, hl]

lemma step_transfer (h : s.rest = i :: rest) (ho : i.op = some op) (ht : i.isTerminator = true) :
    step M B s = transfer M B { s with rest } i op := by
  have hc : terminators.contains op = true := by simpa [Instr.isTerminator, ho] using ht
  have hp : op ≠ "phi" := by
    rintro rfl
    simp [terminators] at hc
  simp only [step, h, ho, perform, hp, hc, if_true, if_false]

lemma step_jump (h : s.rest = .jump l :: rest) : step M B s = jumpTo B { s with rest } l := by
  rw [step_transfer h rfl rfl]
  simp [transfer, Instr.jump, Instr.uses, destination]

lemma step_straight (h : s.rest = i :: rest) (ho : i.op = some op)
    (hp : op ≠ "phi") (ht : i.isTerminator = false) :
    step M B s =
      match effect M op i.shape (i.uses.map s.env) s.world with
      | some (result, world, events) => bind { s with rest } i.dest result world events
      | none => .fail := by
  have hc : terminators.contains op = false := by simpa [Instr.isTerminator, ho] using ht
  simp only [step, h, ho, perform, hp, hc, if_false, Bool.false_eq_true]

end Step

/-- The trace of the first steps of a run, and how far the run has come with them. -/
def observe (M : Meaning V W) (body : List Instr) : Nat → State V W → List (Event V) × Status V W
  | 0, _ => ([], .running)
  | n + 1, s =>
    match step M body s with
    | .go s' events =>
      let (later, status) := observe M body n s'
      (events ++ later, status)
    | .stop value world => ([], .returned value world)
    | .fail => ([], .failed)

/-- The environment that gives parameters their arguments, a later parameter over an earlier one of
the same name. -/
def bindParams (ps : List Param) (vs : List V) : Env V :=
  (ps.zip vs).foldl (fun e (p, v) =>
    match p.name with
    | some x => e.set x (some v)
    | none => e) fun _ => none

lemma bindParams_eq_none (vs : List V) (h : ∀ p ∈ ps, p.name ≠ some x) :
    bindParams ps vs x = none := by
  refine List.foldlRecOn (motive := fun e : Env V => e x = none) _ _ rfl ?_
  rintro e he ⟨p, v⟩ hp
  dsimp only
  cases hy : p.name with
  | none => exact he
  | some y =>
    refine (Env.set_other ?_).trans he
    rintro rfl
    exact h p (of_mem_zip hp).1 hy

/-- A parameter starts with a value if there are enough arguments. -/
lemma exists_bindParams {vs : List V} (len : ps.length = vs.length)
    (h : ∃ p ∈ ps, p.name = some x) : ∃ v, bindParams ps vs x = some v := by
  have all : ∀ (e : Env V), (∃ v, e x = some v) ∨ (∃ p ∈ ps, p.name = some x) →
      ∃ v, (ps.zip vs).foldl (fun e (p, v) =>
        match p.name with
        | some x => e.set x (some v)
        | none => e) e x = some v := by
    clear h
    induction ps generalizing vs with
    | nil =>
      rintro e (h | ⟨p, hp, _⟩)
      · exact h
      · simp at hp
    | cons p ps ih =>
      cases vs with
      | nil => simp at len
      | cons v vs =>
        intro e h
        refine ih (by simpa using len) _ ?_
        -- The first parameter is bound, or it is another one.
        dsimp only
        by_cases hp : p.name = some x
        · exact .inl ⟨v, by simp [hp]⟩
        · refine h.imp (fun ⟨u, hu⟩ => ⟨u, ?_⟩) fun ⟨q, hq, hx⟩ => ⟨q, ?_, hx⟩
          · cases hy : p.name with
            | none => exact hu
            | some y => exact (Env.set_other fun e => hp (by rw [hy, e])).trans hu
          · obtain rfl | hq := mem_cons.mp hq
            · exact absurd hx hp
            · exact hq
  exact all _ (.inr h)

end Machine

/-- The state in which a function starts that is called with these arguments. -/
def Func.start {V W : Type} (f : Func) (args : List V) (world : W) : Machine.State V W where
  rest := f.instrs.getD []
  env := Machine.bindParams f.params args
  world := world

/-- Counts its argument down to zero and prints it then. The first block is the target of a jump,
and a block that no control reaches stands between the others. -/
def Func.countdown : Func where
  name := some "main"
  args := some [Sample.wholeParam "n"]
  instrs := some [
    .labelled "loop",
    Sample.branch "n" "body" "done",
    .labelled "body",
    Sample.compute .int "pred" "n" ["n"],
    .jump "loop",
    Sample.plain "nop",
    .labelled "done",
    Sample.effect "print" ["n"]]

/-- Numbers, of which only zero is false, and the predecessor of a number. -/
def Meaning.counting : Meaning Nat Unit where
  act i operands _ :=
    match i.op, operands with
    | some "pred", [some n] => some (some (n - 1), ())
    | _, _ => none
  truth n := some (n != 0)

end BrilKit
