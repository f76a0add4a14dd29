import BrilKit.Proofs.Run.Block
import BrilKit.Proofs.Run.Words

/-!
# Runs of a block on words

The run of a block that meets no error: what is seen of it, how control leaves, and what the
variables and the world are behind it. In a block of single assignments a variable that is read has
the value that it has at the end.
-/

namespace BrilKit

open List

/-- The result of a copy or of an operation on words or truth values, if it has one. -/
abbrev WordOp.eval : String → List Val → Option Val := CoreOp.copyOr compute

namespace Block

open Machine

variable {W : Type} (M : Meaning Val W)

/-- What is seen of an operation that control passes through, and the environment and the world
behind it. -/
def pass (i : Instr) (op : String) (e : Env Val) (w : W) :
    Option (List (Event Val) × Env Val × W) :=
  (effect M op i.shape (i.uses.map e) w).bind fun r =>
    match i.dest, r.1 with
    | some d, some v => some (r.2.2, e.set d (some v), r.2.1)
    | some _, none => none
    | none, _ => some (r.2.2, e, r.2.1)

def exec : Block → Env Val → W → Option (List (Event Val) × Exit × Env Val × W)
  | [], e, w => some ([], .next, e, w)
  | i :: is, e, w =>
    match i.op with
    | none => (exec is e w).map fun r => ((i.label.map .enter).toList ++ r.1, r.2)
    | some op =>
      if i.isTerminator then (leave M i op e).map fun exit => ([], exit, e, w)
      else
        (pass M i op e w).bind fun s => (exec is s.2.1 s.2.2).map fun r => (s.1 ++ r.1, r.2)

/-- No variable is assigned twice, and none is read, but by a phi, before it is assigned. -/
def AssignsOnce : Block → Prop
  | [] => True
  | i :: is =>
    (∀ d ∈ i.dest, ∀ j ∈ is, j.dest ≠ some d) ∧
      (i.op ≠ some "phi" → ∀ x ∈ i.uses, ∀ j ∈ i :: is, j.dest ≠ some x) ∧ AssignsOnce is

instance decidableAssignsOnce : (b : Block) → Decidable (AssignsOnce b)
  | [] => .isTrue trivial
  | _ :: is =>
    have := decidableAssignsOnce is
    inferInstanceAs (Decidable (_ ∧ _ ∧ _))

variable {M} {i : Instr} {is b : Block} {op x : String} {e f : Env Val} {w w' : W}
  {es : List (Event Val)} {exit : Exit}

lemma pass_other (h : pass M i op e w = some (es, f, w')) (hx : i.dest ≠ some x) : f x = e x := by
  obtain ⟨r, _, h⟩ := Option.bind_eq_some_iff.mp h
  split at h
  · next d v hd _ =>
    cases h
    exact Env.set_other fun same => hx (same ▸ hd)
  · cases h
  · cases h
    rfl

section Words

variable {other : Behaviour Val W} {d : String}
  {v : Val}

lemma pass_const (ho : i.op = some "const") (hd : i.dest = some d) :
    pass (.word other) i "const" e w =
      (i.value.bind Val.ofDatum).map fun v => ([], e.set d (some v), w) := by
  have value : i.shape.value = i.value := rfl
  rw [pass, effect_const (i := i.shape) ho, value, hd]
  cases i.value.bind Val.ofDatum <;> rfl

lemma mapM_operands {xs : List String} : (xs.map e).mapM id = xs.mapM e := by
  rw [mapM_map]
  rfl

lemma pass_value (ho : i.op = some op) (hv : CoreOp.isValue op = true) (hd : i.dest = some d) :
    pass (.word other) i op e w =
      ((i.uses.mapM e).bind (WordOp.eval op)).map fun v => ([], e.set d (some v), w) := by
  rw [pass, effect_value (i := i.shape) ho hv, mapM_operands, hd]
  cases (i.uses.mapM e).bind (WordOp.eval op) <;> rfl

lemma pass_copy (ho : i.op = some "id") (hd : i.dest = some d) (hx : i.uses = [x])
    (hv : e x = some v) : pass (.word other) i "id" e w = some ([], e.set d (some v), w) := by
  rw [pass_value ho rfl hd, hx]
  simp [hv, CoreOp.copyOr]

end Words

lemma exec_pass_eq_some {r : List (Event Val) × Exit × Env Val × W} (ho : i.op = some op)
    (ht : i.isTerminator = false) (h : exec M (i :: is) e w = some r) :
    ∃ es e' w' s, pass M i op e w = some (es, e', w') ∧ exec M is e' w' = some s ∧
      r = (es ++ s.1, s.2) := by
  rw [exec, ho] at h
  simp only [ht, Bool.false_eq_true] at h
  obtain ⟨⟨es, e', w'⟩, passed, h⟩ := Option.bind_eq_some_iff.mp h
  obtain ⟨s, run, rfl⟩ := Option.map_eq_some_iff.mp h
  exact ⟨es, e', w', s, passed, run, rfl⟩

lemma exec_unassigned (h : exec M b e w = some (es, exit, f, w'))
    (hx : ∀ i ∈ b, i.dest ≠ some x) : f x = e x := by
  induction b generalizing e w es with
  | nil =>
    cases h
    rfl
  | cons i is ih =>
    have rest : ∀ j ∈ is, j.dest ≠ some x := fun j hj => hx j (mem_cons_of_mem i hj)
    cases ho : i.op with
    | none =>
      rw [exec, ho] at h
      obtain ⟨⟨es', r⟩, run, h⟩ := Option.map_eq_some_iff.mp h
      cases h
      exact ih run rest
    | some op =>
      cases ht : i.isTerminator with
      | true =>
        rw [exec, ho] at h
        simp only [ht] at h
        obtain ⟨_, _, h⟩ := Option.map_eq_some_iff.mp h
        cases h
        rfl
      | false =>
        obtain ⟨_, e', _, ⟨_, s⟩, passed, run, h⟩ := exec_pass_eq_some ho ht h
        cases h
        exact (ih run rest).trans (pass_other passed (hx i mem_cons_self))

end Block

end BrilKit
