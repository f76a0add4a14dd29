import BrilKit.Proofs.Data.Outcome
import BrilKit.Proofs.Run.Core
import BrilKit.ValueNumbering.Local
import Mathlib.Data.Int.Order.Basic
import Mathlib.Data.List.Permutation
import Mathlib.Order.Compare

/-!
# What computations give

An operation that is carried out on constants gives the constant of what the operation gives on the
values. Ordering the operands of a commutative operation does not change what it gives.
-/

namespace BrilKit

open List Outcome

namespace Val

@[simp] lemma toInt?_toDatum (v : Val) : v.toDatum.toInt? = some v.number := by
  cases v with
  | int i => rfl
  | bool b => rfl

@[simp] lemma truth_toDatum (v : Val) : v.toDatum.truth = (v.number != 0) := by
  cases v with
  | int i => rfl
  | bool b => cases b <;> rfl

lemma equal_toDatum (a b : Val) : a.toDatum.equal b.toDatum = (a.number == b.number) := by
  cases a <;> cases b <;> simp [toDatum, Datum.equal, Datum.same, Datum.numEqual, Datum.toInt?, number]

end Val

namespace Arith

open CoreOp

variable {op : String} {a b : Val} {vs : List Val} {v : Val}

lemma numeric_toDatum {f : Int → Int → Outcome Datum} {g : Float → Float → Outcome Datum} :
    numeric f g a.toDatum b.toDatum = f a.number b.number := by
  simp [numeric]

lemma add_toDatum : add a.toDatum b.toDatum = .ok (.int (a.number + b.number)) := by
  cases a <;> cases b <;> rfl

lemma mul_toDatum : mul a.toDatum b.toDatum = .ok (.int (a.number * b.number)) := by
  cases a <;> cases b <;> rfl

lemma compareBy_toDatum {accept : Ordering → Bool} :
    compareBy accept a.toDatum b.toDatum = .ok (.bool (accept (compare a.number b.number))) := by
  cases a <;> cases b <;> rfl

lemma apply_arithmetic {f : Int → Int → Option Int} {k : Int} (hf : arithmetic op = some f)
    (hk : f a.number b.number = some k) : apply op [a.toDatum, b.toDatum] = .ok (.int k) := by
  unfold arithmetic at hf
  split at hf <;> cases hf
  · cases hk
    exact add_toDatum
  · cases hk
    exact numeric_toDatum
  · cases hk
    exact mul_toDatum
  · by_cases hz : b.number = 0
    · simp [hz] at hk
    · obtain rfl : Int.fdiv a.number b.number = k := by simpa [hz] using hk
      refine numeric_toDatum.trans ?_
      rw [if_neg hz]

lemma apply_div_zero (hz : b.number = 0) :
    apply "div" [a.toDatum, b.toDatum] = .error .divisionByZero := by
  refine numeric_toDatum.trans ?_
  rw [if_pos hz]

lemma apply_comparison {r : Int → Int → Bool} (hr : comparison op = some r) :
    apply op [a.toDatum, b.toDatum] = .ok (.bool (r a.number b.number)) := by
  have ok : ∀ {p q : Bool}, (p = true ↔ q = true) →
      (Except.ok (.bool p) : Outcome Datum) = .ok (.bool q) := fun h => by rw [Bool.eq_iff_iff.mpr h]
  unfold comparison at hr
  split at hr <;> cases hr
  · exact ok (by rw [Val.equal_toDatum])
  · exact compareBy_toDatum.trans (ok (by simp [compare_gt_iff_gt]))
  · exact compareBy_toDatum.trans (ok (by simp [compare_lt_iff_lt]))
  · exact compareBy_toDatum.trans (ok (by simp [compare_lt_iff_lt]))
  · exact compareBy_toDatum.trans (ok (by simp [compare_gt_iff_gt]))
  · exact ok (by rw [Val.equal_toDatum]; rfl)

/-- `and` and `or` of constants. -/
lemma apply_logic {f : Bool → Bool → Bool} {p q : Bool} (hf : logic op = some f) :
    apply op [.bool p, .bool q] = .ok (.bool (f p q)) := by
  unfold logic at hf
  split at hf <;> cases hf <;> cases p <;> rfl

lemma apply_compute (h : compute op vs = some v) :
    apply op (vs.map Val.toDatum) = .ok v.toDatum := by
  unfold compute at h
  split at h
  · next a =>
    split at h
    · next hop =>
      cases h
      subst hop
      have truth : (!a.toDatum.truth) = (a.number == 0) := by simp [bne]
      exact congrArg (fun p => Except.ok (Datum.bool p)) truth
    · cases h
  · next a b =>
    cases hf : arithmetic op with
    | some f =>
      rw [hf] at h
      obtain ⟨k, hk, rfl⟩ := Option.map_eq_some_iff.mp h
      exact apply_arithmetic hf hk
    | none =>
      cases hr : comparison op with
      | some r =>
        rw [hf, hr] at h
        cases h
        exact apply_comparison hr
      | none =>
        rw [hf, hr] at h
        cases a with
        | int i => cases h
        | bool p =>
          cases b with
          | int j => cases h
          | bool q =>
            obtain ⟨f, hl, rfl⟩ := Option.map_eq_some_iff.mp h
            exact apply_logic hl
  · cases h

end Arith

namespace CoreOp

variable {op : String} {a b v : Val}

lemma exists_pair {vs : List Val} (hop : op ≠ "not") (h : compute op vs = some v) :
    ∃ a b, vs = [a, b] := by
  unfold compute at h
  split at h
  · rw [if_neg hop] at h
    cases h
  · exact ⟨_, _, rfl⟩
  · cases h

lemma compute_self (hop : ["eq", "ne", "le", "ge"].contains op = true)
    (h : compute op [a, a] = some v) : v = .bool (op != "ne") := by
  simp only [contains_iff_mem, mem_cons, not_mem_nil, or_false] at hop
  obtain rfl | rfl | rfl | rfl := hop <;>
    simpa [compute, arithmetic, comparison, eq_comm] using h

lemma compute_decided (hop : ["and", "or"].contains op = true) (h : compute op [a, b] = some v) :
    (a.toDatum.truth = (op == "or") → v = a) ∧ (b.toDatum.truth = (op == "or") → v = b) := by
  simp only [contains_iff_mem, mem_cons, not_mem_nil, or_false] at hop
  cases a with
  | int i => obtain rfl | rfl := hop <;> simp [compute, arithmetic, comparison] at h
  | bool p =>
    cases b with
    | int j => obtain rfl | rfl := hop <;> simp [compute, arithmetic, comparison] at h
    | bool q =>
      obtain rfl | rfl := hop <;> simp [compute, arithmetic, comparison, logic] at h <;> subst h <;>
        cases p <;> cases q <;> simp [Val.number]

end CoreOp

namespace ValueNumbering

open CoreOp

variable {consts : Table Nat Datum} {u : Value} {val : Nat → Option Val}
  {vs : List Val} {v a b : Val} {c : Datum} {n : Nat}

/-- The constants are those of the values at their numbers. -/
def Known (consts : Table Nat Datum) (val : Nat → Option Val) : Prop :=
  ∀ n c, consts.get? n = some c → ∃ v, val n = some v ∧ c = v.toDatum

lemma Known.operands {ns : List Nat} {args : List Datum} (known : Known consts val)
    (hvs : ns.map val = vs.map some) (h : ns.mapM consts.get? = some args) :
    args = vs.map Val.toDatum := by
  induction ns generalizing vs args with
  | nil =>
    obtain rfl : vs = [] := by simpa using hvs.symm
    simpa using h.symm
  | cons n ns ih =>
    cases vs with
    | nil => cases hvs
    | cons v vs =>
      obtain ⟨hv, rest⟩ := List.cons.inj hvs
      rw [mapM_cons] at h
      obtain ⟨c, hc, h⟩ := Option.bind_eq_some_iff.mp h
      obtain ⟨cs, hcs, h⟩ := Option.bind_eq_some_iff.mp h
      cases h
      obtain ⟨v', hv', rfl⟩ := known n c hc
      obtain rfl : v' = v := Option.mem_unique hv' hv
      rw [ih rest hcs, map_cons]

lemma Known.eq (known : Known consts val) (hc : consts.get? n = some c) (hv : val n = some v) :
    c = v.toDatum := by
  obtain ⟨v', hv', rfl⟩ := known n c hc
  rw [Option.mem_unique hv' hv]

/-- What it takes to give a constant although some operand is not one. -/
lemma foldPartly_eq_some (h : foldPartly consts u = .ok (some c)) :
    (["eq", "ne", "le", "ge"].contains u.op = true ∧ c = .bool (u.op != "ne") ∧
        ∃ n, u.args[0]? = some n ∧ u.args[1]? = some n) ∨
      (["and", "or"].contains u.op = true ∧ c.truth = (u.op == "or") ∧
        ∃ n, (u.args[0]? = some n ∨ u.args[1]? = some n) ∧ consts.get? n = some c) := by
  unfold foldPartly at h
  split at h
  · next hop =>
    obtain ⟨m, hm, h⟩ := of_bind h
    obtain ⟨n, hn, h⟩ := of_bind h
    have result := pure_eq_ok.mp h
    split at result
    · next hmn =>
      subst hmn
      exact .inl ⟨hop, (Option.some.inj result).symm, m, itemAt_eq_ok.mp hm,
        itemAt_eq_ok.mp hn⟩
    · cases result
  · split at h
    · next hop =>
      obtain ⟨m, hm, h⟩ := of_bind h
      -- The constant is looked up under the number of the first operand or of the second.
      obtain ⟨n, place, h⟩ : ∃ n, (u.args[0]? = some n ∨ u.args[1]? = some n) ∧
          (do
            let c ← fetchNumber consts n
            return if c.truth == (u.op == "or") then some c else none) = .ok (some c) := by
        split at h
        · exact ⟨m, .inl (itemAt_eq_ok.mp hm), h⟩
        · obtain ⟨n, hn, h⟩ := of_bind h
          exact ⟨n, .inr (itemAt_eq_ok.mp hn), h⟩
      obtain ⟨d, hd, h⟩ := of_bind h
      have result := pure_eq_ok.mp h
      split at result
      · next decides =>
        obtain rfl := Option.some.inj result
        exact .inr ⟨(Bool.and_eq_true_iff.mp hop).1, by simpa using decides, n, place,
          ofOption_eq_ok.mp hd⟩
      · cases result
    · cases pure_eq_ok.mp h

lemma foldValue_eq_some (h : foldValue consts u = .ok (some c)) :
    (∃ args, u.args.mapM consts.get? = some args ∧ Arith.apply u.op args = .ok c) ∨
      foldPartly consts u = .ok (some c) := by
  unfold foldValue at h
  split at h
  · split at h
    · exact .inr h
    · next args hargs =>
      refine .inl ⟨args, hargs, ?_⟩
      split at h
      · cases h
      · next ha => cases h; exact ha
      · cases h
      · cases h
  · cases h

lemma exists_args {args : List Nat} (h : args.map val = [some a, some b]) :
    ∃ m n, args = [m, n] ∧ val m = some a ∧ val n = some b := by
  obtain ⟨m, rest, rfl, hm, hrest⟩ := map_eq_cons_iff.mp h
  obtain ⟨n, rest, rfl, hn, hrest⟩ := map_eq_cons_iff.mp hrest
  obtain rfl := map_eq_nil_iff.mp hrest
  exact ⟨m, n, rfl, hm, hn⟩

/-- The constant that a computation is given is that of its result. -/
lemma foldValue_eval (known : Known consts val) (h : foldValue consts u = .ok (some c))
    (hvs : u.args.map val = vs.map some) (hv : eval u.op vs = some v) : c = v.toDatum := by
  have copy : u.op ≠ "id" := by
    intro hop
    rw [foldValue, hop] at h
    cases h
  have hv : CoreOp.compute u.op vs = some v := by simpa [eval, copyOr, copy] using hv
  obtain ⟨args, hargs, ha⟩ | h := foldValue_eq_some h
  · rw [known.operands hvs hargs, Arith.apply_compute hv] at ha
    exact (Except.ok.inj ha).symm
  · have partly := foldPartly_eq_some h
    have binary : u.op ≠ "not" := by
      intro hop
      rw [hop] at partly
      obtain ⟨hop, _⟩ | ⟨hop, _⟩ := partly <;> exact absurd hop (by decide)
    obtain ⟨a, b, rfl⟩ := exists_pair binary hv
    obtain ⟨m, n, hargs, hm, hn⟩ := exists_args hvs
    rw [hargs] at partly
    obtain ⟨hop, rfl, k, hk, hk'⟩ | ⟨hop, truth, k, hk | hk, hc⟩ := partly
    · cases hk
      cases hk'
      obtain rfl : a = b := Option.mem_unique hm hn
      rw [compute_self hop hv]
      rfl
    · cases hk
      obtain rfl := known.eq hc hm
      rw [(compute_decided hop hv).1 truth]
    · cases hk
      obtain rfl := known.eq hc hn
      rw [(compute_decided hop hv).2 truth]

lemma foldValue_div (known : Known consts val) (hvs : u.args.map val = [some a, some b])
    (hop : u.op = "div") (hz : b.number = 0) : foldValue consts u ≠ .ok (some c) := by
  intro h
  obtain ⟨args, hargs, ha⟩ | h := foldValue_eq_some h
  · rw [known.operands (show u.args.map val = [a, b].map some from hvs) hargs, hop] at ha
    cases (Arith.apply_div_zero hz).symm.trans ha
  · obtain ⟨hop', _⟩ | ⟨hop', _⟩ := foldPartly_eq_some h
    · rw [hop] at hop'
      exact absurd hop' (by decide)
    · rw [hop] at hop'
      exact absurd hop' (by decide)

lemma canonical_op (u : Value) : (canonical u).op = u.op := by
  unfold canonical
  split <;> rfl

lemma mem_canonical_args : n ∈ (canonical u).args ↔ n ∈ u.args := by
  unfold canonical
  split
  · exact (mergeSort_perm u.args _).mem_iff
  · rfl

/-- Ordering the operands of a commutative operation keeps what it gives. -/
lemma canonical_eval (hvs : u.args.map val = vs.map some) (h : eval u.op vs = some v) :
    ∃ vs', (canonical u).args.map val = vs'.map some ∧ eval (canonical u).op vs' = some v := by
  unfold canonical
  split
  · next hop =>
    have comm : ∀ a b, eval u.op [a, b] = eval u.op [b, a] := by
      obtain hop | hop : u.op = "add" ∨ u.op = "mul" := by simpa using hop
      · simp [hop, copyOr, CoreOp.compute, arithmetic, Int.add_comm]
      · simp [hop, copyOr, CoreOp.compute, arithmetic, Int.mul_comm]
    have binary : u.op ≠ "id" ∧ u.op ≠ "not" := by
      obtain hop | hop : u.op = "add" ∨ u.op = "mul" := by simpa using hop
      · simp [hop]
      · simp [hop]
    have hc : CoreOp.compute u.op vs = some v := by simpa [eval, copyOr, binary.1] using h
    obtain ⟨a, b, rfl⟩ := exists_pair binary.2 hc
    obtain ⟨m, n, hargs, hm, hn⟩ := exists_args hvs
    have perm : (sortNats u.args).Perm [m, n] := hargs ▸ mergeSort_perm u.args _
    obtain sorted | sorted := perm_pair.mp perm
    · exact ⟨[a, b], by simp [sorted, hm, hn], h⟩
    · exact ⟨[b, a], by simp [sorted, hm, hn], (comm b a).trans h⟩
  · exact ⟨vs, hvs, h⟩

end ValueNumbering

end BrilKit
