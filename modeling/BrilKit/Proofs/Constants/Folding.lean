import BrilKit.Constants.Propagate
import BrilKit.Proofs.ValueNumbering.Computation
import BrilKit.Proofs.ValueNumbering.Registers

/-!
# What is carried out ahead of the run

Three passes carry out operations on constants: value numbering, propagation of constants and value
numbering of single assignments. A division by zero is left by the first and fails in the others.
-/

namespace BrilKit

open List Table

def Table.HoldsConst {κ : Type} [BEq κ] (t : Table κ Datum) (k : κ) (v : Val) : Prop :=
  t.get? k = some v.toDatum

/-- The instruction assigns what an operation gives on variables. -/
structure Instr.Applies (i : Instr) (op : String) (xs : List String) (d : String) : Prop where
  op : i.op = some op
  args : i.args = some xs
  dest : i.dest = some d
  value : i.value = none
  type : i.type ≠ some (.name "float")

open Words (write)

variable {op d : String} {xs : List String} {vs : List Val} {i : Instr}

namespace ValueNumbering

variable {consts : Table Nat Datum} {ns : List Nat}

lemma mapM_consts (h : Forall₂ consts.HoldsConst ns vs) :
    ns.mapM consts.get? = some (vs.map Val.toDatum) := by
  rw [Outcome.mapM_eq_some, forall₂_map_right_iff]
  exact h

lemma foldValue_apply {result : Outcome (Option Datum)} (takes : WordOp.takes op vs = true)
    (hc : Forall₂ consts.HoldsConst ns vs)
    (h : (∃ u : Val, Arith.apply op (vs.map Val.toDatum) = .ok u.toDatum ∧
        result = .ok (some u.toDatum)) ∨
      Arith.apply op (vs.map Val.toDatum) = .error .divisionByZero ∧
        result = .ok none) :
    foldValue consts ⟨op, ns⟩ = result := by
  have all : ∀ op ∈ WordOp.names, Arith.foldable op = true := by decide
  rw [foldValue, if_pos (all op (WordOp.mem_names takes)), mapM_consts hc]
  obtain ⟨u, hu, rfl⟩ | ⟨hz, rfl⟩ := h
  · simp only [hu]
    cases u <;> rfl
  · simp only [hz]

end ValueNumbering

namespace Constants

variable {known : Known}

lemma operands_of_known (hi : i.Applies op xs d)
    (h : Forall₂ known.HoldsConst xs vs) :
    operands known i = some (vs.map write, true) := by
  have read : xs.map (operand known) = vs.map fun v => (write v, true) := by
    clear hi
    induction h with
    | nil => rfl
    | cons hx _ ih =>
      rw [map_cons, ih, operand, hx]
      rfl
  rw [operands, hi.value, hi.args]
  simp [read]

lemma step_eq_eval (hi : i.Applies op xs d) (takes : WordOp.takes op vs = true)
    (h : Forall₂ known.HoldsConst xs vs) :
    step known i =
      (Words.eval op i.type (vs.map write)).map fun c => (known.put d c, i.toConst c) := by
  have all : ∀ op ∈ WordOp.names, (op == "call") = false := by decide
  simp only [step, hi.type, hi.op, all op (WordOp.mem_names takes),
    operands_of_known hi h, result, hi.dest]
  cases Words.eval op i.type (vs.map write) <;> rfl

end Constants

namespace ValueNumbering.Versioned

variable {r : Register}

lemma step_eq_eval (hi : i.Applies op xs d) (takes : WordOp.takes op vs = true)
    (h : Forall₂ r.HoldsConst xs vs) :
    step .pure r i = (Words.eval op i.type (vs.map write)).bind fun c =>
      record r (i.toConst c) (Register.textOfConst c) (r.byText.get? (Register.textOfConst c)) := by
  have all : ∀ op ∈ WordOp.names, op ∉ Scope.pure.skipped := by decide
  have counted := skips_eq_false hi.dest hi.type (all op (WordOp.mem_names takes))
  rw [step_eq_record hi.op counted (Register.operands_of_holdsConst hi.value hi.args h), evaluate]
  cases Words.eval op i.type (vs.map write) <;> rfl

lemma record_const (reached : Reached .pure r) (hi : i.Applies op xs d) (u : Val) :
    ∃ r' i', record r (i.toConst u.toDatum) (Register.textOfConst u.toDatum)
        (r.byText.get? (Register.textOfConst u.toDatum)) = .ok (r', i') ∧
      i'.value = some u.toDatum ∧ r'.HoldsConst d u := by
  have dest : (i.toConst u.toDatum).dest = some d := hi.dest
  cases number : r.byText.get? (Register.textOfConst u.toDatum) with
  | none =>
    refine ⟨_, _, rfl, rfl, r.next, ?_, ?_⟩
    · rw [dest]
      exact get?_put_same
    · exact get?_put_same
  | some n =>
    obtain ⟨_, text, y, hy⟩ := reached.coherent _ n number
    refine ⟨_, _, Outcome.ok_bind hy rfl, ?_, n, ?_, text⟩
    · cases y <;> rfl
    · rw [show (withOperand (i.toConst u.toDatum) y).dest = some d by cases y <;> exact dest]
      exact get?_put_same

end ValueNumbering.Versioned

namespace Constants

open ValueNumbering

/-- An operation whose operands are constants of the right kinds is carried out by the three passes
with one result, which is the result of the run exactly when nothing wraps and no negative quotient
is rounded. A division by zero is left by value numbering; the two other passes fail. -/
theorem folded_eq_run_iff {consts : Table Nat Datum} {ns : List Nat} {known : Known} {r : Register}
    (hi : i.Applies op xs d) (takes : WordOp.takes op vs = true)
    (hc : List.Forall₂ consts.HoldsConst ns vs)
    (hk : List.Forall₂ known.HoldsConst xs vs)
    (hr : List.Forall₂ r.HoldsConst xs vs) (reached : Versioned.Reached .pure r) :
    (∀ v, WordOp.compute op vs = some v →
      ∃ u : Val, foldValue consts ⟨op, ns⟩ = .ok (some u.toDatum) ∧
        Constants.step known i = .ok (known.put d u.toDatum, i.toConst u.toDatum) ∧
        (∃ r' i', Versioned.step .pure r i = .ok (r', i') ∧ i'.value = some u.toDatum ∧
          r'.HoldsConst d u) ∧
        (u = v ↔ WordOp.Exact op vs)) ∧
    (WordOp.compute op vs = none →
      foldValue consts ⟨op, ns⟩ = .ok none ∧
        Constants.step known i = .error .divisionByZero ∧
        Versioned.step .pure r i = .error .divisionByZero) := by
  rw [step_eq_eval hi takes hk, Versioned.step_eq_eval hi takes hr]
  constructor
  · intro v run
    obtain ⟨u, hu, exact⟩ := WordOp.compute_core run
    rw [Words.eval_compute run hu]
    refine ⟨u, ?_, rfl, Versioned.record_const reached hi u, exact⟩
    exact foldValue_apply takes hc (.inl ⟨u, Arith.apply_compute hu, rfl⟩)
  · intro none
    obtain ⟨a, rfl, rfl⟩ := WordOp.compute_eq_none takes none
    have failed : Words.eval "div" i.type ([.int a, .int 0].map write) = .error .divisionByZero :=
      Words.eval_div_zero
    rw [failed]
    refine ⟨?_, rfl, rfl⟩
    exact foldValue_apply takes hc (.inr ⟨Arith.apply_div_zero rfl, rfl⟩)

def dividing : Instr :=
  { op := some "div", dest := some "q", type := some .int, args := some ["a", "b"] }

def given (x : String) (n : Int) : Instr :=
  { op := some "const", dest := some x, type := some .int, value := some (.int n) }

def twoGiven (m n : Int) : Register :=
  (({} : Register).enter (some "a") (Register.textOfConst (.int m))).enter (some "b")
    (Register.textOfConst (.int n))

lemma reached_nine_two : Versioned.Reached .pure (twoGiven 9 2) := by
  have first : Versioned.step .pure {} (given "a" 9) =
      .ok (({} : Register).enter (some "a") (Register.textOfConst (.int 9)), given "a" 9) := by
    rfl
  have second : Versioned.step .pure
      (({} : Register).enter (some "a") (Register.textOfConst (.int 9))) (given "b" 2) =
      .ok (twoGiven 9 2, given "b" 2) := by
    rfl
  exact .step (.step .start first) second

/-- Nine divided by two. -/
theorem folded_eq_run_nine_two : ∃ u : Val,
    foldValue (.ofList [(0, .int 9), (1, .int 2)]) ⟨"div", [0, 1]⟩ = .ok (some u.toDatum) ∧
      (∃ r' i', Versioned.step .pure (twoGiven 9 2) dividing = .ok (r', i') ∧
        i'.value = some u.toDatum) ∧
      WordOp.compute "div" [.int 9, .int 2] = some u := by
  have applies : dividing.Applies "div" ["a", "b"] "q" := ⟨rfl, rfl, rfl, rfl, by decide⟩
  have known : List.Forall₂ (Table.ofList [("a", .int 9), ("b", .int 2)]).HoldsConst
      ["a", "b"] [.int 9, .int 2] := .cons rfl (.cons rfl .nil)
  have numbered : List.Forall₂ (Table.ofList [(0, .int 9), (1, .int 2)]).HoldsConst
      [0, 1] [.int 9, .int 2] := .cons rfl (.cons rfl .nil)
  have held : List.Forall₂ (twoGiven 9 2).HoldsConst ["a", "b"] [.int 9, .int 2] :=
    .cons ⟨0, rfl, rfl⟩ (.cons ⟨1, rfl, rfl⟩ .nil)
  have run := folded_eq_run_iff applies (by decide) numbered known held reached_nine_two
  obtain ⟨u, hu, _, ⟨r', i', hr, hv, _⟩, hex⟩ := run.1 (.int 4) rfl
  obtain rfl := hex.mpr (by decide)
  exact ⟨.int 4, hu, ⟨r', i', hr, hv⟩, rfl⟩

/-- Minus seven divided by two is minus three; what is put in its place is minus four. -/
theorem folded_rounds_down :
    WordOp.compute "div" [.int (-7), .int 2] = some (.int (-3)) ∧
      foldValue (.ofList [(0, .int (-7)), (1, .int 2)]) ⟨"div", [0, 1]⟩ = .ok (some (.int (-4))) ∧
      (Constants.step (.ofList [("a", .int (-7)), ("b", .int 2)]) dividing).map (·.2) =
        .ok (dividing.toConst (.int (-4))) ∧
      (Versioned.step .pure (twoGiven (-7) 2) dividing).map (·.2) =
        .ok (dividing.toConst (.int (-4))) := by
  refine ⟨rfl, rfl, ?_, ?_⟩
  · cbv
  · cbv

end Constants

end BrilKit
