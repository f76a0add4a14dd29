import BrilKit.Proofs.Run.Core
import Mathlib.Tactic.Linarith

/-!
# The core operations on words

Programs run on signed words of 64 bits. `Exact` says when an operation on words gives what the same
operation gives on unbounded numbers with quotients rounded toward minus infinity.
-/

namespace BrilKit

namespace WordOp

def size : Nat := 18446744073709551616

def wrap (i : Int) : Int := i.bmod size

def InRange (i : Int) : Prop := -9223372036854775808 ≤ i ∧ i ≤ 9223372036854775807

instance (i : Int) : Decidable (InRange i) := inferInstanceAs (Decidable (_ ∧ _))

def arithmetic : String → Option (Int → Int → Option Int)
  | "add" => some fun a b => some (wrap (a + b))
  | "sub" => some fun a b => some (wrap (a - b))
  | "mul" => some fun a b => some (wrap (a * b))
  | "div" => some fun a b => if b = 0 then none else some (wrap (a.tdiv b))
  | _ => none

/-- The comparisons of words; there is none for inequality. -/
def comparison (op : String) : Option (Int → Int → Bool) :=
  if op = "ne" then none else CoreOp.comparison op

/-- The result of an operation on words or truth values, if it has one. -/
def compute (op : String) : List Val → Option Val
  | [.int a, .int b] =>
    match arithmetic op with
    | some f => (f a b).map .int
    | none => (comparison op).map fun r => .bool (r a b)
  | [.bool a, .bool b] => (CoreOp.logic op).map fun f => .bool (f a b)
  | [.bool a] => if op = "not" then some (.bool !a) else none
  | _ => none

def takes (op : String) : List Val → Bool
  | [.int _, .int _] => (arithmetic op).isSome || (comparison op).isSome
  | [.bool _, .bool _] => (CoreOp.logic op).isSome
  | [.bool _] => op == "not"
  | _ => false

def names : List String :=
  ["add", "sub", "mul", "div", "eq", "lt", "gt", "le", "ge", "and", "or", "not"]

/-- The result of the operation is neither wrapped nor, as a quotient, rounded up. -/
def Exact (op : String) : List Val → Prop
  | [.int a, .int b] =>
    match op with
    | "add" => InRange (a + b)
    | "sub" => InRange (a - b)
    | "mul" => InRange (a * b)
    | "div" => InRange (a.tdiv b) ∧ (b ∣ a ∨ 0 ≤ a * b)
    | _ => True
  | _ => True

instance (op : String) (vs : List Val) : Decidable (Exact op vs) := by
  unfold Exact
  split
  · split <;> infer_instance
  · infer_instance

variable {op : String} {a b i : Int} {vs : List Val} {u v : Val}

lemma wrap_eq_self_iff : wrap i = i ↔ InRange i := by
  constructor
  · intro h
    have low : -((size : Int) / 2) ≤ i.bmod size := Int.le_bmod (by decide)
    have high : i.bmod size < ((size : Int) + 1) / 2 := Int.bmod_lt (by decide)
    rw [show i.bmod size = i from h] at low high
    unfold size at low high
    exact ⟨by omega, by omega⟩
  · rintro ⟨low, high⟩
    apply Int.bmod_eq_of_le
    · unfold size
      omega
    · unfold size
      omega

lemma wrap_ne_sub_one : wrap i ≠ i - 1 := by
  intro h
  obtain ⟨k, hk⟩ : (size : Int) ∣ i.bmod size - i := Int.dvd_bmod_sub_self
  rw [show i.bmod size = i - 1 from h] at hk
  unfold size at hk
  omega

lemma fdiv_eq (hb : b ≠ 0) :
    a.fdiv b = if b ∣ a ∨ 0 ≤ a * b then a.tdiv b else a.tdiv b - 1 := by
  rw [Int.fdiv_eq_tdiv]
  by_cases hd : b ∣ a
  · simp [hd]
  · have ha : a ≠ 0 := by
      rintro rfl
      exact hd (dvd_zero b)
    rcases lt_or_gt_of_ne ha with ha | ha <;> rcases lt_or_gt_of_ne hb with hb | hb
    · have := mul_pos_of_neg_of_neg ha hb
      simp [not_le.mpr ha, not_le.mpr hb, Int.sign_eq_neg_one_of_neg hb, this.le]
    · have := mul_neg_of_neg_of_pos ha hb
      simp [hd, not_le.mpr ha, hb.le, Int.sign_eq_one_of_pos hb, not_le.mpr this]
    · have := mul_neg_of_pos_of_neg ha hb
      simp [hd, ha.le, not_le.mpr hb, not_le.mpr this]
    · have := mul_pos ha hb
      simp [ha.le, hb.le, this.le]

lemma fdiv_eq_wrap_iff (hb : b ≠ 0) :
    a.fdiv b = wrap (a.tdiv b) ↔ InRange (a.tdiv b) ∧ (b ∣ a ∨ 0 ≤ a * b) := by
  rw [fdiv_eq hb]
  split
  · next same => rw [eq_comm, wrap_eq_self_iff, and_iff_left same]
  · next lower =>
    constructor
    · intro h
      exact absurd h.symm wrap_ne_sub_one
    · intro h
      exact absurd h.2 lower

lemma mem_names (h : takes op vs = true) : op ∈ names := by
  unfold takes at h
  split at h
  · obtain h | h := Bool.or_eq_true_iff.mp h
    · obtain ⟨f, hf⟩ := Option.isSome_iff_exists.mp h
      unfold arithmetic at hf
      split at hf <;> cases hf <;> decide
    · obtain ⟨f, hf⟩ := Option.isSome_iff_exists.mp h
      unfold comparison CoreOp.comparison at hf
      split at hf
      · cases hf
      · next ne => split at hf <;> cases hf <;> first | decide | exact absurd rfl ne
  · obtain ⟨f, hf⟩ := Option.isSome_iff_exists.mp h
    unfold CoreOp.logic at hf
    split at hf <;> cases hf <;> decide
  · rw [show op = "not" by simpa using h]
    decide
  · cases h

lemma takes_of_compute (h : compute op vs = some v) : takes op vs = true := by
  unfold compute at h
  split at h
  · cases hf : arithmetic op with
    | some f => simp [takes, hf]
    | none =>
      rw [hf] at h
      obtain ⟨r, hr, _⟩ := Option.map_eq_some_iff.mp h
      simp [takes, hr]
  · obtain ⟨f, hf, _⟩ := Option.map_eq_some_iff.mp h
    simp [takes, hf]
  · split at h
    · next hop => simp [takes, hop]
    · cases h
  · cases h

lemma compute_eq_none (h : takes op vs = true) (none : compute op vs = none) :
    ∃ a, op = "div" ∧ vs = [.int a, .int 0] := by
  unfold takes at h
  split at h
  · next a b =>
    simp only [compute] at none
    cases hf : arithmetic op with
    | none =>
      rw [hf] at h none
      cases hr : comparison op with
      | none => simp [hr] at h
      | some r => simp [hr] at none
    | some f =>
      rw [hf] at none
      unfold arithmetic at hf
      split at hf <;> cases hf
      · cases none
      · cases none
      · cases none
      · by_cases hb : b = 0
        · exact ⟨a, rfl, by rw [hb]⟩
        · simp [hb] at none
  · next a b =>
    obtain ⟨f, hf⟩ := Option.isSome_iff_exists.mp h
    simp [compute, hf] at none
  · next a => simp [compute, show op = "not" by simpa using h] at none
  · cases h

/-- An operation on unbounded numbers gives what it gives on words when it is exact. -/
lemma compute_core (h : compute op vs = some v) :
    ∃ u, CoreOp.compute op vs = some u ∧ (u = v ↔ Exact op vs) := by
  unfold compute at h
  split at h
  · next a b =>
    cases hf : arithmetic op with
    | none =>
      rw [hf] at h
      obtain ⟨r, hr, rfl⟩ := Option.map_eq_some_iff.mp h
      unfold comparison at hr
      split at hr
      · cases hr
      · refine ⟨.bool (r a b), ?_, ?_⟩
        · unfold CoreOp.comparison at hr
          split at hr <;> cases hr <;> rfl
        · unfold CoreOp.comparison at hr
          split at hr <;> cases hr <;> simp [Exact]
    | some f =>
      rw [hf] at h
      obtain ⟨k, hk, rfl⟩ := Option.map_eq_some_iff.mp h
      unfold arithmetic at hf
      split at hf <;> cases hf
      · cases hk
        refine ⟨.int (a + b), rfl, ?_⟩
        rw [Val.int.injEq, eq_comm]
        exact wrap_eq_self_iff
      · cases hk
        refine ⟨.int (a - b), rfl, ?_⟩
        rw [Val.int.injEq, eq_comm]
        exact wrap_eq_self_iff
      · cases hk
        refine ⟨.int (a * b), rfl, ?_⟩
        rw [Val.int.injEq, eq_comm]
        exact wrap_eq_self_iff
      · by_cases hb : b = 0
        · simp [hb] at hk
        · obtain rfl : wrap (a.tdiv b) = k := by simpa [hb] using hk
          refine ⟨.int (a.fdiv b), ?_, ?_⟩
          · simp [CoreOp.compute, CoreOp.arithmetic, Val.number, hb]
          · rw [Val.int.injEq]
            exact fdiv_eq_wrap_iff hb
  · next a b =>
    obtain ⟨f, hf, rfl⟩ := Option.map_eq_some_iff.mp h
    refine ⟨.bool (f a b), ?_, ?_⟩
    · unfold CoreOp.logic at hf
      split at hf <;> cases hf <;> rfl
    · simp [Exact]
  · next a =>
    split at h
    · next hop =>
      cases h
      refine ⟨.bool !a, ?_, ?_⟩
      · cases a <;> simp [CoreOp.compute, hop, Val.number]
      · simp [Exact]
    · cases h
  · cases h

end WordOp

/-- Core programs on words. -/
abbrev Meaning.word {W : Type} : Behaviour Val W → Meaning Val W := .computing WordOp.compute

/-- Core programs on words, in which no other operation succeeds. -/
abbrev Meaning.words : Meaning Val Unit := .word fun _ _ _ => none

lemma Meaning.steady_word {W : Type} {other : Behaviour Val W} :
    (Meaning.word other).Steady := by
  intro i op os w r ho hop act
  simp only [Meaning.computing, ho] at act
  split at act
  · obtain ⟨v, _, rfl⟩ := Option.map_eq_some_iff.mp act
    exact ⟨v, rfl⟩
  · next hc =>
    rw [if_pos (hop.resolve_left hc)] at act
    obtain ⟨vs, _, act⟩ := Option.bind_eq_some_iff.mp act
    obtain ⟨v, _, rfl⟩ := Option.map_eq_some_iff.mp act
    exact ⟨v, rfl⟩

end BrilKit
