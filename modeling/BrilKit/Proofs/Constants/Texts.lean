import BrilKit.Constants.Words
import BrilKit.Proofs.Run.Words
import BrilKit.Proofs.Text.Literals

/-!
# Operations on the texts of constants

Constants are carried as texts. The text of a whole number or a truth value reads back as it, so an
operation that is carried out on texts gives what it gives on unbounded numbers and truth values.
-/

namespace BrilKit

open List Outcome

namespace Numeral

variable {ds : List Char} {c : Char}

lemma digitRun_eq (hne : ds ≠ []) (hds : AreDigits ds) : digitRun ds = some ds := by
  induction ds with
  | nil => exact absurd rfl hne
  | cons c ds ih =>
    have hc := hds c mem_cons_self
    cases ds with
    | nil => simp [digitRun, hc]
    | cons c' ds =>
      have hc' : c' ≠ '_' := by
        rintro rfl
        exact absurd (hds '_' (mem_cons_of_mem c mem_cons_self)) (by decide)
      have hrest := ih (cons_ne_nil _ _) fun a ha => hds a (mem_cons_of_mem c ha)
      rw [digitRun, if_pos hc, hrest]
      · rfl
      · simp
      · simpa using hc'

lemma not_isBlank_of_isDigit (h : c.isDigit = true) : Letters.isBlank c = false := by
  simp only [Char.isDigit, Bool.and_eq_true, decide_eq_true_eq] at h
  have h1 : 48 ≤ c.toNat := h.1
  have h2 : c.toNat ≤ 57 := h.2
  simp only [Letters.isBlank, Bool.or_eq_false_iff, Bool.and_eq_false_iff, decide_eq_false_iff_not]
  omega

lemma strip_eq {cs : List Char} (h : ∀ c ∈ cs, Letters.isBlank c = false) :
    Letters.strip cs = cs := by
  have drop : ∀ {cs : List Char}, (∀ c ∈ cs, Letters.isBlank c = false) →
      cs.dropWhile Letters.isBlank = cs := by
    intro cs h
    cases cs with
    | nil => rfl
    | cons c cs => simp [h c mem_cons_self]
  rw [Letters.strip, drop h, drop fun c hc => h c (mem_reverse.mp hc), reverse_reverse]

lemma sign_or_digit {i : Int} (h : c ∈ (Datum.int i).text.toList) : c = '-' ∨ c.isDigit = true := by
  rw [show (Datum.int i).text = toString i from rfl, Parser.toList_toString_int,
    mem_append] at h
  obtain h | h := h
  · unfold signChars at h
    split at h
    · exact .inl (mem_singleton.mp h)
    · cases h
  · exact .inr (areDigits_digitsOf _ c h)

lemma read_text (i : Int) : read (Datum.int i).text = .ok i := by
  have htext : (Datum.int i).text.toList =
      signChars (decide (i < 0)) ++ Decimal.digitsOf i.natAbs :=
    Parser.toList_toString_int i
  have hne := Decimal.digitsOf_ne_nil i.natAbs
  have hds := areDigits_digitsOf i.natAbs
  have solid : ∀ c ∈ (Datum.int i).text.toList, Letters.isBlank c = false := by
    intro c hc
    obtain rfl | hc := sign_or_digit hc
    · decide
    · exact not_isBlank_of_isDigit hc
  have hread : read? (Datum.int i).text = some i := by
    rw [read?, strip_eq solid, htext]
    by_cases hi : i < 0
    · simp only [hi, decide_true, signChars, if_true, singleton_append, digitRun_eq hne hds,
        Option.map_some, Decimal.digitsValue_digitsOf]
      congr 1
      omega
    · obtain ⟨c, r, hcr⟩ := exists_cons_of_ne_nil hne
      have hc := hds c (hcr ▸ mem_cons_self)
      have h1 : c ≠ '-' := by rintro rfl; exact absurd hc (by decide)
      have h2 : c ≠ '+' := by rintro rfl; exact absurd hc (by decide)
      have hval := Decimal.digitsValue_digitsOf i.natAbs
      have hrun := digitRun_eq hne hds
      rw [hcr] at hval hrun
      simp only [hi, decide_false, signChars, Bool.false_eq_true, if_false, nil_append, hcr]
      split
      · next heq => exact absurd (List.cons.inj heq).1 h1
      · next heq => exact absurd (List.cons.inj heq).1 h2
      · simp only [hrun, Option.map_some, hval, Bool.false_eq_true, if_false]
        congr 1
        omega
  rw [read, hread]

lemma text_ne_bool (i : Int) (b : Bool) : (Datum.int i).text ≠ (Datum.bool b).text := by
  intro h
  have none : read? (Datum.bool b).text = none := by cases b <;> decide
  have some := read_text i
  rw [h, read, none] at some
  cases some

end Numeral

namespace Words

open CoreOp

variable {op : String} {ty : Option Ty} {d : Datum} {u v : Val} {vs : List Val} {i j : Int}
  {p q : Bool} {s : String} {args : List String}

def write (v : Val) : String := v.toDatum.text

lemma truth_bool (p : Bool) : truth (Datum.bool p).text = .ok p := by
  cases p with
  | false => cbv
  | true => cbv

lemma write_injective : Function.Injective write := by
  intro u v h
  cases u with
  | int i =>
    cases v with
    | int j =>
      have hi := Numeral.read_text i
      rw [show (Datum.int i).text = (Datum.int j).text from h, Numeral.read_text j] at hi
      rw [Except.ok.inj hi]
    | bool q => exact absurd h (Numeral.text_ne_bool i q)
  | bool p =>
    cases v with
    | int j => exact absurd h.symm (Numeral.text_ne_bool j p)
    | bool q =>
      have hp := truth_bool p
      rw [show (Datum.bool p).text = (Datum.bool q).text from h, truth_bool q] at hp
      rw [Except.ok.inj hp]

lemma read_write : Numeral.read (write (.int i)) = .ok i := Numeral.read_text i

lemma intAt_zero : intAt (write (.int i) :: args) 0 = .ok i :=
  ok_bind rfl read_write

lemma intAt_one : intAt (s :: write (.int i) :: args) 1 = .ok i :=
  ok_bind rfl read_write

lemma onInts_text (f : Int → Int → Datum) :
    onInts f [write (.int i), write (.int j)] = .ok (f i j) := by
  rw [onInts, intAt_zero, intAt_one]
  rfl

lemma quotient_text : quotient [write (.int i), write (.int j)] =
    if j = 0 then .error .divisionByZero else .ok (.int (i.fdiv j)) := by
  rw [quotient, intAt_zero, intAt_one]
  rfl

lemma truthAt_zero : truthAt (write (.bool p) :: args) 0 = .ok p := truth_bool p

lemma truthAt_one : truthAt (s :: write (.bool p) :: args) 1 = .ok p := truth_bool p

/-- An operation on texts gives what it gives on unbounded numbers, if it has a result on words. -/
lemma eval_compute (run : WordOp.compute op vs = some v) (h : compute op vs = some u) :
    eval op ty (vs.map write) = .ok u.toDatum := by
  unfold WordOp.compute at run
  split at run
  · next i j =>
    cases hf : WordOp.arithmetic op with
    | some f =>
      rw [hf] at run
      obtain ⟨k, hk, rfl⟩ := Option.map_eq_some_iff.mp run
      unfold WordOp.arithmetic at hf
      split at hf <;> cases hf
      · cases h
        exact onInts_text _
      · cases h
        exact onInts_text _
      · cases h
        exact onInts_text _
      · by_cases hj : j = 0
        · simp [hj] at hk
        · obtain rfl : Val.int (i.fdiv j) = u := by
            simpa [compute, arithmetic, Val.number, hj] using h
          exact quotient_text.trans (if_neg hj)
    | none =>
      rw [hf] at run
      obtain ⟨r, hr, rfl⟩ := Option.map_eq_some_iff.mp run
      unfold WordOp.comparison at hr
      split at hr
      · cases hr
      · unfold comparison at hr
        split at hr <;> cases hr <;> cases h <;> exact onInts_text _
  · next p q =>
    obtain ⟨f, hf, rfl⟩ := Option.map_eq_some_iff.mp run
    unfold logic at hf
    split at hf <;> cases hf <;> cases h
    · cases p with
      | false =>
        simp [eval, both, truthAt_zero, Val.toDatum]
      | true =>
        simp [eval, both, truthAt_zero, truthAt_one,
          Val.toDatum]
    · cases p with
      | false =>
        simp [eval, either, truthAt_zero, truthAt_one,
          Val.toDatum]
      | true =>
        simp [eval, either, truthAt_zero, Val.toDatum]
  · next p =>
    split at run
    · next hop =>
      subst hop
      cases h
      cases p <;> simp [eval, truthAt_zero, Val.toDatum, Val.number]
    · cases run
  · cases run

lemma truth_int : truth (write (.int i)) ≠ .ok p := by
  have lower : Letters.lowerText (write (.int i)) = write (.int i) := (Parser.int_text_reads i).1
  have other : ∀ t : String, 'e' ∈ t.toList → write (.int i) ≠ t := by
    rintro t ht rfl
    obtain h | h := Numeral.sign_or_digit ht
    · cases h
    · cases h
  rw [truth, lower, truthOf, if_neg (by simpa using other "true" (by decide)),
    if_neg (by simpa using other "false" (by decide))]
  exact nofun

lemma valueAt_write (h : valueAt ty [write v] = .ok d) : d = v.toDatum := by
  obtain ⟨t, _, h⟩ := of_bind h
  split at h
  · obtain ⟨n, hn, h⟩ := of_bind h
    cases h
    cases v with
    | int i =>
      cases intAt_zero.symm.trans hn
      rfl
    | bool p =>
      have none : Numeral.read? (write (.bool p)) = none := by cases p <;> decide
      obtain ⟨_, found, hn⟩ := of_bind hn
      cases found
      rw [Numeral.read, none] at hn
      cases hn
  · obtain ⟨q, hq, h⟩ := of_bind h
    cases h
    cases v with
    | int i => exact absurd hq truth_int
    | bool p =>
      cases truthAt_zero.symm.trans hq
      rfl

lemma eval_div_zero : eval "div" ty [write (.int i), write (.int 0)] = .error .divisionByZero :=
  quotient_text.trans (if_pos rfl)

end Words

end BrilKit
