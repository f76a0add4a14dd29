import BrilKit.Proofs.Run.Positions
import BrilKit.Proofs.Run.Words

/-!
# Speculation

A function can run ahead on a guess. `speculate` saves the variables and the last two labels; a
`guard` on a false operand aborts: it restores what was saved last, leaves the world as it is and
goes on at its label; a `commit` ends all speculation that is open. A function that speculates
neither calls nor returns.

`Machine.step` knows nothing of this and is what a run does otherwise. `observe_eq` and
`Steps.plain` say that a body without these three operations runs as on that machine: the list of
what has been saved stays empty, which is kept by every step.
-/

namespace BrilKit

open List

/-- The operation begins, ends or aborts speculation. -/
def Instr.speculates (i : Instr) : Bool := i.op.any ["speculate", "guard", "commit"].contains

/-- A body without speculation. -/
def Unspeculative (body : List Instr) : Prop := ∀ i ∈ body, i.speculates = false

instance (body : List Instr) : Decidable (Unspeculative body) :=
  inferInstanceAs (Decidable (∀ i ∈ body, _))

lemma Instr.speculates_of_shape {i i' : Instr} (h : i'.shape = i.shape) :
    i'.speculates = i.speculates := by
  rw [speculates, op_of_shape h, speculates]

/-- Core programs do not speculate. -/
lemma Instr.Core.not_speculates {i : Instr} (h : i.Core) : i.speculates = false := by
  cases h with
  | label _ op => simp [speculates, op]
  | const op => simp [speculates, op]
  | value name op value =>
    have none : ∀ n ∈ ["speculate", "guard", "commit"], ¬ CoreOp.isValue n = true := by decide
    simpa [speculates, op] using fun member => none name member value
  | call op => simp [speculates, op]
  | effect name op effect =>
    have none : ∀ n ∈ CoreOp.effects, n ∉ ["speculate", "guard", "commit"] := by decide
    simpa [speculates, op] using none name effect

namespace Machine

/-- What an abort restores. -/
structure Saved (V : Type) where
  env : Env V
  label : Option String
  previous : Option String

namespace Speculation

variable {V W : Type} {M : Meaning V W} {body : List Instr} {s t : State V W} {n : Nat}
  {es : List (Event V)} {saved : List (Saved V)}

/-- A guard; the state is the one behind it. -/
def guard (M : Meaning V W) (body : List Instr) (s : State V W) (saved : List (Saved V))
    (i : Instr) : Move V W × List (Saved V) :=
  match i.uses.map s.env with
  | [some v] =>
    match M.truth v, saved, i.labels.getD [] with
    | some true, _, _ => (.go s [], saved)
    | some false, c :: outer, l :: _ =>
      (jumpTo body { s with env := c.env, label := c.label, previous := c.previous } l, outer)
    | _, _, _ => (.fail, saved)
  | _ => (.fail, saved)

/-- One step of a run, and what has been saved behind it, the innermost first. -/
def step (M : Meaning V W) (body : List Instr) (s : State V W) (saved : List (Saved V)) :
    Move V W × List (Saved V) :=
  match s.rest with
  | [] => (if saved.isEmpty then .stop none s.world else .fail, saved)
  | i :: rest =>
    match i.op with
    | some "speculate" =>
      (if i.uses.isEmpty then .go { s with rest } [] else .fail,
        ⟨s.env, s.label, s.previous⟩ :: saved)
    | some "commit" =>
      (if i.uses.isEmpty && !saved.isEmpty then .go { s with rest } [] else .fail, [])
    | some "guard" => guard M body { s with rest } saved i
    | op =>
      (if ["call", "ret"].any (op = some ·) && !saved.isEmpty then .fail
        else Machine.step M body s, saved)

/-- The trace of the first steps of a run, and how far the run has come with them. -/
def observe (M : Meaning V W) (body : List Instr) :
    Nat → State V W → List (Saved V) → List (Event V) × Status V W
  | 0, _, _ => ([], .running)
  | n + 1, s, saved =>
    match step M body s saved with
    | (.go s' events, saved') =>
      let (later, status) := observe M body n s' saved'
      (events ++ later, status)
    | (.stop value world, _) => ([], .returned value world)
    | (.fail, _) => ([], .failed)

/-- The state after a number of steps, and the events on the way. -/
inductive Steps (M : Meaning V W) (body : List Instr) :
    Nat → State V W → List (Saved V) → List (Event V) → State V W → List (Saved V) → Prop where
  | refl {s : State V W} {saved : List (Saved V)} : Steps M body 0 s saved [] s saved
  | head {n : Nat} {s t u : State V W} {saved saved' saved'' : List (Saved V)}
      {es fs : List (Event V)} :
    step M body s saved = (.go t es, saved') →
    Steps M body n t saved' fs u saved'' →
    Steps M body (n + 1) s saved (es ++ fs) u saved''

section Plain

variable (inside : ∀ i ∈ s.rest, i ∈ body)
include inside

lemma inside_step (h : Machine.step M body s = .go t es) : ∀ i ∈ t.rest, i ∈ body := by
  cases hs : s.rest with
  | nil => simp [Machine.step, hs] at h
  | cons i r =>
    intro j hj
    obtain ⟨_, hr, _⟩ | ⟨_, _, _, l, _, a, rest, found, hr⟩ := step_cases hs h
    · exact inside j (by simp [hs, ← hr, hj])
    · exact mem_of_found found j (hr ▸ hj)

variable (none : Unspeculative body)
include none

/-- Without speculation a step is one of the plain machine. -/
lemma step_eq : step M body s [] = (Machine.step M body s, []) := by
  unfold step
  split
  · next hs => simp [Machine.step, hs]
  · next i rest hs =>
    have quiet := none i (inside i (by simp [hs]))
    split <;> simp_all [Instr.speculates]

/-- Without speculation a run is observed as one of the plain machine. -/
lemma observe_eq : observe M body n s [] = Machine.observe M body n s := by
  induction n generalizing s with
  | zero => rfl
  | succ n ih =>
    rw [observe, Machine.observe, step_eq inside none]
    cases h : Machine.step M body s with
    | go t es => simp only [ih (inside_step inside h)]
    | stop v w => rfl
    | fail => rfl

lemma Steps.plain (h : Steps M body n s [] es t saved) :
    Machine.Steps M body n s es t ∧ saved = [] ∧ ∀ i ∈ t.rest, i ∈ body := by
  induction n generalizing s es with
  | zero =>
    cases h
    exact ⟨.refl, rfl, inside⟩
  | succ n ih =>
    cases h with
    | head hs rest =>
      rw [step_eq inside none, Prod.mk.injEq] at hs
      obtain ⟨hs, rfl⟩ := hs
      obtain ⟨later, empty⟩ := ih (inside_step inside hs) rest
      exact ⟨.head hs later, empty⟩

lemma Steps.of_plain (h : Machine.Steps M body n s es t) : Steps M body n s [] es t [] := by
  induction h with
  | refl => exact .refl
  | head hs _ ih => exact .head (by rw [step_eq inside none, hs]) (ih (inside_step inside hs))

end Plain

end Speculation

end Machine

namespace Func

open Machine

variable {V W : Type} {f : Func} {M : Meaning V W} {args : List V} {world : W} {n : Nat}

/-- What can be seen of the first steps of a function that is called with these arguments. -/
def observe (f : Func) (M : Meaning V W) (args : List V) (world : W) (n : Nat) :
    List (Event V) × Status V W :=
  Speculation.observe M (f.instrs.getD []) n (f.start args world) []

/-- Whatever is observed of `f` is also observed of `g`, behind the events of some labels that `f`
does not have, `k` of them at most. -/
def RunsBehind (k : Nat) (g f : Func) : Prop :=
  ∃ names : List String, names.length ≤ k ∧
    (∀ i ∈ f.instrs.getD [], ∀ l, i.label = some l → l ∉ names) ∧
    ∀ (V W : Type) (M : Meaning V W) (args : List V) (world : W) (n : Nat),
      ∃ m, n ≤ m ∧ g.observe M args world m =
        (names.map .enter ++ (f.observe M args world n).1, (f.observe M args world n).2)

/-- The run of a function shows these events and then comes to this instruction. -/
def Reaches (f : Func) (M : Meaning V W) (args : List V) (world : W) (es : List (Event V))
    (i : Instr) : Prop :=
  ∃ m u saved rest,
    Speculation.Steps M (f.instrs.getD []) m (f.start args world) [] es u saved ∧ u.rest = i :: rest

lemma observe_eq (none : Unspeculative (f.instrs.getD [])) :
    f.observe M args world n = Machine.observe M (f.instrs.getD []) n (f.start args world) :=
  Speculation.observe_eq (fun _ => id) none

/-- Guesses that `b` will hold and sets `v` to two; where the guess is wrong, `v` is four again. -/
def guess : List Instr :=
  [Sample.whole "v" 4, Sample.plain "speculate", Sample.whole "v" 2,
    { op := some "guard", args := some ["b"], labels := some ["failed"] }, Sample.plain "commit",
    .labelled "failed", Sample.effect "print" ["v"]]

def guessing : Func where
  name := some "main"
  args := some [Sample.truthParam "b"]
  instrs := some guess

def mistaken : Func where
  name := some "main"
  instrs := some (Sample.truth "b" false :: guess)

end Func

example : Func.countdown.observe .counting [1] () 10 =
    ([.enter "loop", .enter "body", .enter "loop", .enter "done", .print [0]],
      .returned none ()) := by
  decide

example : Func.guessing.observe .words [.bool false] () 10 =
    ([.enter "failed", .print [.int 4]], .returned none ()) := by
  decide

example : Func.guessing.observe .words [.bool true] () 10 =
    ([.enter "failed", .print [.int 2]], .returned none ()) := by
  decide

end BrilKit
