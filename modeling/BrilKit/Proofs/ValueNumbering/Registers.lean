import BrilKit.Proofs.Constants.Texts
import BrilKit.Proofs.Data.Table
import BrilKit.ValueNumbering.Versioned

/-!
# Registers of written values

What one item does to a register, and what holds of every register that items lead to: a text that
has a number is the text of that number, and some variable holds its value. A constant is entered as
a text that gives the constant back.
-/

namespace BrilKit

open Outcome Table

namespace Words

lemma blank_not_mem_write (v : Val) : ' ' ∉ (write v).toList := by
  cases v with
  | int i =>
    intro h
    obtain h | h := Numeral.sign_or_digit h
    · cases h
    · cases h
  | bool p => cases p <;> decide

end Words

namespace ValueNumbering

namespace Register

open Words (write)

variable {r : Register} {x t : String} {n : Nat} {v : Val} {y d z : Option String}

lemma toList_textOfConst (v : Val) :
    (textOfConst v.toDatum).toList =
      'c' :: 'o' :: 'n' :: 's' :: 't' :: ' ' :: (write v).toList := by
  rw [textOfConst, String.toList_append]
  rfl

lemma contains_textOfConst (v : Val) :
    contains (textOfConst v.toDatum) "const" = true := by
  rw [contains, toList_textOfConst]
  rfl

lemma constText_textOfConst (v : Val) :
    constText (textOfConst v.toDatum) = .ok (write v) := by
  have word : (write v).toList.takeWhile (· != ' ') = (write v).toList := by
    rw [List.takeWhile_eq_self_iff]
    intro c hc
    simp only [bne_iff_ne]
    rintro rfl
    exact Words.blank_not_mem_write v hc
  have rest : (textOfConst v.toDatum).toList.dropWhile (· != ' ') = ' ' :: (write v).toList := by
    rw [toList_textOfConst]
    rfl
  rw [constText, rest]
  show Except.ok (String.ofList ((write v).toList.takeWhile (· != ' '))) = _
  rw [word, String.ofList_toList]

lemma textOfConst_inj {u v : Val} :
    textOfConst u.toDatum = textOfConst v.toDatum ↔ u = v := by
  constructor
  · intro h
    have word := constText_textOfConst u
    rw [h, constText_textOfConst v] at word
    exact Words.write_injective (Except.ok.inj word).symm
  · rintro rfl
    rfl

def HoldsConst (r : Register) (x : String) (v : Val) : Prop :=
  ∃ n, r.numbers.get? (some x) = some n ∧ r.texts.get? n = some (textOfConst v.toDatum)

lemma HoldsConst.operand (h : r.HoldsConst x v) : r.operand x = .ok (write v, true) := by
  obtain ⟨n, hn, ht⟩ := h
  have fetched : fetch r.texts n = .ok (textOfConst v.toDatum) := by rw [fetch, ht]; rfl
  simp only [Register.operand, hn, fetched, contains_textOfConst, if_true,
    constText_textOfConst, bind_ok, pure_eq]

lemma operands_of_holdsConst {i : Instr} {xs : List String} {vs : List Val}
    (hv : i.value = none) (ha : i.args = some xs) (h : List.Forall₂ r.HoldsConst xs vs) :
    r.operands i = .ok (some (vs.map write, true)) := by
  have read : xs.mapM r.operand = .ok (vs.map fun v => (write v, true)) := by
    rw [mapM_eq_ok, List.forall₂_map_right_iff]
    exact h.imp fun _ _ hx => hx.operand
  rw [operands, hv, ha]
  refine ok_bind read ?_
  simp

/-- A text that has a number is the text of that number, and some variable holds its value. -/
def Coherent (r : Register) : Prop :=
  ∀ t n, r.byText.get? t = some n →
    n < r.next ∧ r.texts.get? n = some t ∧ ∃ y, r.holder n = .ok y

lemma holder_eq_ok : r.holder n = .ok y ↔ ∃ ys, r.holders.get? n = some ys ∧ ys[0]? = some y := by
  rw [holder, bind_eq_ok]
  simp only [fetch, ofOption_eq_ok, itemAt_eq_ok]

lemma holder_enter :
    (r.enter d t).holder n = .ok y ↔ (n = r.next ∧ y = d) ∨ (n ≠ r.next ∧ r.holder n = .ok y) := by
  rw [holder_eq_ok, holder_eq_ok]
  simp only [enter, get?_put]
  by_cases hn : n = r.next
  · simp [hn, eq_comm]
  · simp [hn]

lemma holder_assign {m : Nat} (hm : r.holder m = .ok z) :
    (r.assign d m).holder n = .ok y ↔ r.holder n = .ok y := by
  obtain ⟨zs, hzs, hz⟩ := holder_eq_ok.mp hm
  rw [holder_eq_ok, holder_eq_ok]
  simp only [assign, Table.alter, get?_put]
  by_cases hn : n = m
  · subst hn
    cases zs with
    | nil => cases hz
    | cons z' zs => simp [hzs]
  · simp [hn]

lemma Coherent.enter (h : r.Coherent) (d : Option String) (t : String) :
    (r.enter d t).Coherent := by
  intro s n hs
  simp only [Register.enter, get?_put] at hs ⊢
  split at hs
  · next hst =>
    cases hs
    refine ⟨Nat.lt_succ_self _, by simp [hst], d, ?_⟩
    exact holder_enter.mpr (.inl ⟨rfl, rfl⟩)
  · obtain ⟨lt, text, y, hy⟩ := h s n hs
    have old : n ≠ r.next := Nat.ne_of_lt lt
    refine ⟨Nat.lt_succ_of_lt lt, by simp [old, text], y, ?_⟩
    exact holder_enter.mpr (.inr ⟨old, hy⟩)

lemma Coherent.assign (h : r.Coherent) (d : Option String) (hn : r.holder n = .ok z) :
    (r.assign d n).Coherent := by
  intro s m hs
  obtain ⟨lt, text, y, hy⟩ := h s m hs
  exact ⟨lt, text, y, (holder_assign hn).mpr hy⟩

end Register

namespace Versioned

variable {scope : Scope} {r r' : Register} {i i' : Instr} {op : String}

lemma skips_eq_false {d : String} (hd : i.dest = some d) (hf : i.type ≠ some (.name "float"))
    (hop : op ∉ scope.skipped) : skips scope i op = false := by
  simp [skips, hd, hf, hop]

lemma record_eq_ok {j : Instr} {t : String} {number : Option Nat}
    (h : record r j t number = .ok (r', i')) :
    (number = none ∧ r' = r.enter j.dest t ∧ i' = j) ∨
      ∃ n y, number = some n ∧ r.holder n = .ok y ∧ r' = r.assign j.dest n ∧
        i' = { withOperand j y with op := some "id" } := by
  unfold record at h
  split at h
  · cases h
    exact .inl ⟨rfl, rfl, rfl⟩
  · next n =>
    obtain ⟨y, hy, h⟩ := of_bind h
    cases h
    refine .inr ⟨n, y, rfl, hy, ?_, rfl⟩
    cases y <;> rfl

lemma step_eq_record {args : List String} {allConst : Bool} (ho : i.op = some op)
    (hs : skips scope i op = false) (hops : r.operands i = .ok (some (args, allConst))) :
    step scope r i = (evaluate scope i op args allConst).bind fun p =>
      record r p.1 p.2 (known r p.1 p.2) := by
  simp only [step, ho, hs, hops]
  rfl

lemma step_eq_ok (ho : i.op = some op) (h : step scope r i = .ok (r', i')) :
    ((skips scope i op = true ∨ r.operands i = .ok none) ∧ r' = r ∧ i' = i) ∨
      ∃ args allConst j t, skips scope i op = false ∧ r.operands i = .ok (some (args, allConst)) ∧
        evaluate scope i op args allConst = .ok (j, t) ∧
        record r j t (known r j t) = .ok (r', i') := by
  simp only [step, ho] at h
  split at h
  · next hs =>
    cases h
    exact .inl ⟨.inl hs, rfl, rfl⟩
  · next hs =>
    obtain ⟨operands, hops, h⟩ := of_bind h
    cases operands with
    | none =>
      cases h
      exact .inl ⟨.inr hops, rfl, rfl⟩
    | some read =>
      obtain ⟨args, allConst⟩ := read
      obtain ⟨⟨j, t⟩, hj, h⟩ := of_bind h
      exact .inr ⟨args, allConst, j, t, by simpa using hs, hops, hj, h⟩

lemma step_label (ho : i.op = none) : step scope r i = .ok (r, i) := by rw [step, ho]

/-- A register that items lead to from the empty one. -/
inductive Reached (scope : Scope) : Register → Prop where
  | start : Reached scope {}
  | step {r r' : Register} {i i' : Instr} :
    Reached scope r → Versioned.step scope r i = .ok (r', i') → Reached scope r'

lemma Reached.coherent (h : Reached scope r) : r.Coherent := by
  induction h with
  | start => exact nofun
  | @step _ _ i _ _ h ih =>
    cases ho : i.op with
    | none =>
      cases (step_label ho).symm.trans h
      exact ih
    | some op =>
      obtain ⟨_, rfl, _⟩ | ⟨_, _, _, _, _, _, _, h⟩ := step_eq_ok ho h
      · exact ih
      · obtain ⟨_, rfl, _⟩ | ⟨n, y, _, hy, rfl, _⟩ := record_eq_ok h
        · exact ih.enter _ _
        · exact ih.assign _ hy

end Versioned

end ValueNumbering

end BrilKit
