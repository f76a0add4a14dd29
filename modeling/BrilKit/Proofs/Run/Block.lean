import BrilKit.Proofs.Block.Split
import BrilKit.Proofs.Run.Core

/-!
# Runs of a block

A block of a core program runs from its first item until control leaves it. Errors on operands of
the right kind are told apart from other errors.
-/

namespace BrilKit

/-- How control leaves a block. -/
inductive Exit where
  /-- It falls into the next block. -/
  | next
  | jump (label : String)
  | ret (value : Option Val)
deriving DecidableEq

/-- An error in spite of operands of the right kind. -/
inductive Trap where
  | divisionByZero
  /-- The function called fails. -/
  | call
deriving DecidableEq

/-- How the run of a block ends. -/
inductive Ending (W : Type) where
  | left (exit : Exit) (env : Machine.Env Val) (world : W)
  | trapped (trap : Trap)
  /-- A variable without a value was read. -/
  | undefined
  /-- The operands were not those that the operation takes. -/
  | mistyped

/-- Control left the block, or an error came up in spite of operands of the right kind. -/
def Ending.Proper {W : Type} : Ending W → Prop
  | .left _ _ _ => True
  | .trapped _ => True
  | .undefined => False
  | .mistyped => False

/-- Control goes the same way and the environments agree on all variables that are not hidden, or
both runs end with the same error. -/
def Ending.Agrees {W : Type} (hidden : String → Prop) : Ending W → Ending W → Prop
  | .left exit env world, .left exit' env' world' =>
    exit = exit' ∧ world = world' ∧ ∀ x, ¬ hidden x → env x = env' x
  | .trapped trap, .trapped trap' => trap = trap'
  | _, _ => False

namespace Block

open Machine

variable {W : Type} (other : Behaviour Val W)

/-- The error, if any, with which an operation fails on operands of the right kind. -/
def trap? (op : String) (operands : List (Option Val)) : Option Trap :=
  match op, operands with
  | "div", [some _, some b] => if b.number = 0 then some .divisionByZero else none
  | "call", operands => if operands.all Option.isSome then some .call else none
  | _, _ => none

/-- The environment, the world and the events behind an operation that control passes through, or
the error with which it fails, if it is one that counts. -/
def perform (i : Instr) (op : String) (e : Env Val) (w : W) :
    Except (Option Trap) (Env Val × W × List (Event Val)) :=
  match effect (.core other) op i.shape (i.uses.map e) w with
  | none => .error (trap? op (i.uses.map e))
  | some (result, w, es) =>
    match i.dest, result with
    | some d, some v => .ok (e.set d (some v), w, es)
    | some _, none => .error none
    | none, _ => .ok (e, w, es)

/-- The way control leaves with a terminator. -/
def leave (M : Meaning Val W) (i : Instr) (op : String) (e : Env Val) : Option Exit :=
  if i.dest.isSome then none
  else if op = "ret" then
    match i.uses.map e with
    | [] => some (.ret none)
    | [some v] => some (.ret (some v))
    | _ => none
  else (destination M op (i.labels.getD []) (i.uses.map e)).map .jump

def fault (operands : List (Option Val)) : Ending W :=
  if operands.all Option.isSome then .mistyped else .undefined

lemma not_proper_fault {operands : List (Option Val)} : ¬ (fault operands : Ending W).Proper := by
  unfold fault
  split <;> exact id

def run : Block → Env Val → W → List (Event Val) × Ending W
  | [], e, w => ([], .left .next e w)
  | i :: is, e, w =>
    match i.op with
    | none =>
      let (es, ending) := run is e w
      ((i.label.map .enter).toList ++ es, ending)
    | some op =>
      if i.isTerminator then
        match leave (.core other) i op e with
        | some exit => ([], .left exit e w)
        | none => ([], fault (i.uses.map e))
      else
        match perform other i op e w with
        | .ok (e, w, es) =>
          let (fs, ending) := run is e w
          (es ++ fs, ending)
        | .error (some trap) => ([], .trapped trap)
        | .error none => ([], fault (i.uses.map e))

/-- An operation in place of another one: the same events, world and error, and related environments
behind it. Where the first fails with an error that does not count, nothing is asked. -/
def Keeps (R : Env Val → Env Val → Prop) :
    Except (Option Trap) (Env Val × W × List (Event Val)) →
      Except (Option Trap) (Env Val × W × List (Event Val)) → Prop
  | .ok (e, w, es), r => ∃ e', r = .ok (e', w, es) ∧ R e e'
  | .error (some trap), r => r = .error (some trap)
  | .error none, _ => True

/-- Of two runs of blocks the same is seen, and they end alike. -/
def Resembles (hidden : String → Prop) (r r' : List (Event Val) × Ending W) : Prop :=
  r'.1 = r.1 ∧ Ending.Agrees hidden r.2 r'.2

section Keeps

variable {other} {R : Env Val → Env Val → Prop} {i j : Instr} {op d x : String}
  {e e' : Env Val} {w : W} {v : Val}

lemma Keeps.of_shape (shape : j.shape = i.shape) (vals : j.uses.map e' = i.uses.map e)
    (plain : i.dest = none → R e e')
    (assign : ∀ d d' v w' es, i.dest = some d → j.dest = some d' →
      effect (.core other) op i.shape (i.uses.map e) w = some (some v, w', es) →
      R (e.set d (some v)) (e'.set d' (some v))) :
    Keeps R (perform other i op e w) (perform other j op e' w) := by
  unfold perform
  rw [shape, vals]
  cases heff : effect (.core other) op i.shape (i.uses.map e) w with
  | none =>
    cases trap? op (i.uses.map e) with
    | none => trivial
    | some trap => rfl
  | some r =>
    obtain ⟨result, w', es⟩ := r
    cases hd : i.dest with
    | none =>
      rw [Instr.dest_of_shape shape hd]
      exact ⟨e', rfl, plain hd⟩
    | some d =>
      have hsome : j.dest.isSome := by rw [Instr.dest_isSome_of_shape shape, hd, Option.isSome_some]
      obtain ⟨d', hd'⟩ := Option.isSome_iff_exists.mp hsome
      rw [hd']
      cases result with
      | none => trivial
      | some v => exact ⟨_, rfl, assign d d' v w' es hd hd' heff⟩

lemma div_of_trap {os : List (Option Val)} {trap : Trap} (hv : CoreOp.isValue op = true)
    (h : trap? op os = some trap) : ∃ a b, op = "div" ∧ os = [some a, some b] ∧ b.number = 0 := by
  unfold trap? at h
  split at h
  · next a b =>
    split at h
    · next hz => exact ⟨a, b, rfl, rfl, hz⟩
    · cases h
  · exact absurd hv (by decide)
  · cases h

/-- What becomes of a copy or an operation on numbers or truth values. -/
lemma perform_value (ho : i.op = some op) (hv : CoreOp.isValue op = true) (hd : i.dest = some d) :
    (∃ vs v, i.uses.map e = vs.map some ∧ CoreOp.eval op vs = some v ∧
        perform other i op e w = .ok (e.set d (some v), w, [])) ∨
      (∃ a b, op = "div" ∧ i.uses.map e = [some a, some b] ∧ b.number = 0) ∨
      perform other i op e w = .error none := by
  have failed : perform other i op e w = .error (trap? op (i.uses.map e)) →
      (∃ a b, op = "div" ∧ i.uses.map e = [some a, some b] ∧ b.number = 0) ∨
        perform other i op e w = .error none := by
    intro h
    cases ht : trap? op (i.uses.map e) with
    | none => exact .inr (by rw [h, ht])
    | some trap => exact .inl (div_of_trap hv ht)
  unfold perform at failed ⊢
  rw [effect_value (i := i.shape) ho hv] at failed ⊢
  cases hm : (i.uses.map e).mapM id with
  | none => exact .inr (by simpa [hm] using failed)
  | some vs =>
    cases hev : CoreOp.eval op vs with
    | none => exact .inr (by simpa [hm, hev] using failed)
    | some v => exact .inl ⟨vs, v, mapM_id_eq_some.mp hm, hev, by simp [hev, hd]⟩

lemma perform_const (hd : i.dest = some d) (hv : i.value = some v.toDatum)
    (ho : i.op = some "const") : perform other i "const" e w = .ok (e.set d (some v), w, []) := by
  have value : i.shape.value = some v.toDatum := hv
  unfold perform
  rw [effect_const (i := i.shape) ho, value]
  simp [hd]

lemma perform_copy (hd : i.dest = some d) (hx : i.uses = [x]) (hv : e x = some v) :
    perform other i "id" e w = .ok (e.set d (some v), w, []) := by
  simp [perform, hx, hv, effect, hd]

end Keeps

section Run

variable {other} {hidden : String → Prop} {i i' : Instr} {b b' : Block} {op op' : String}
  {e e' : Env Val} {w : W} {es : List (Event Val)} {r r' : List (Event Val) × Ending W}

lemma Resembles.append (h : Resembles hidden r r') :
    Resembles hidden (es ++ r.1, r.2) (es ++ r'.1, r'.2) :=
  ⟨congrArg (es ++ ·) h.1, h.2⟩

lemma resembles_label (ho : i.op = none)
    (rest : (run other b e w).2.Proper → Resembles hidden (run other b e w) (run other b' e' w))
    (ok : (run other (i :: b) e w).2.Proper) :
    Resembles hidden (run other (i :: b) e w) (run other (i :: b') e' w) := by
  rw [run, ho] at ok ⊢
  rw [run, ho]
  exact (rest ok).append

lemma resembles_of_keeps {R : Env Val → Env Val → Prop} (ho : i.op = some op)
    (ht : i.isTerminator = false) (ho' : i'.op = some op') (ht' : i'.isTerminator = false)
    (keeps : Keeps R (perform other i op e w) (perform other i' op' e' w))
    (rest : ∀ e e' w, R e e' → (run other b e w).2.Proper →
      Resembles hidden (run other b e w) (run other b' e' w))
    (ok : (run other (i :: b) e w).2.Proper) :
    Resembles hidden (run other (i :: b) e w) (run other (i' :: b') e' w) := by
  rw [run, ho] at ok ⊢
  rw [run, ho']
  simp only [ht, ht', Bool.false_eq_true] at ok ⊢
  cases hp : perform other i op e w with
  | ok r =>
    obtain ⟨e₁, w₁, es⟩ := r
    rw [hp] at keeps ok
    obtain ⟨e₁', hp', hR⟩ := keeps
    rw [hp']
    exact (rest e₁ e₁' w₁ hR ok).append
  | error trap =>
    rw [hp] at keeps ok
    cases trap with
    | none => exact absurd ok not_proper_fault
    | some trap =>
      rw [show perform other i' op' e' w = _ from keeps]
      exact ⟨rfl, rfl⟩

lemma resembles_exit (ho : i.op = some op) (ht : i.isTerminator = true) (ho' : i'.op = some op)
    (ht' : i'.isTerminator = true) (same : leave (.core other) i' op e' = leave (.core other) i op e)
    (agree : ∀ x, ¬ hidden x → e x = e' x) (ok : (run other (i :: b) e w).2.Proper) :
    Resembles hidden (run other (i :: b) e w) (run other (i' :: b') e' w) := by
  rw [run, ho] at ok ⊢
  rw [run, ho']
  simp only [ht, ht', same] at ok ⊢
  cases hx : leave (.core other) i op e with
  | none =>
    rw [hx] at ok
    exact absurd ok not_proper_fault
  | some exit => exact ⟨rfl, rfl, rfl, agree⟩

end Run

end Block

end BrilKit
