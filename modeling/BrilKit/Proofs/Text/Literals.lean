import BrilKit.Proofs.Data.Decimal
import BrilKit.Proofs.Data.Outcome
import BrilKit.Proofs.Text.Grammar
import BrilKit.Text.Printer

/-!
# Constants that read back

The text of a constant is read as the constant, whatever the type: whole numbers, truth values,
doubles and characters. The other literals that the text could start with do not end at the
semicolon.
-/

namespace BrilKit

open List

def signChars (negative : Bool) : List Char := if negative then ['-'] else []

def AreDigits (ds : List Char) : Prop := ∀ c ∈ ds, c.isDigit = true

lemma AreDigits.append {ds es : List Char} (hd : AreDigits ds) (he : AreDigits es) :
    AreDigits (ds ++ es) := by
  intro c hc
  rw [mem_append] at hc
  exact hc.elim (hd c) (he c)

lemma areDigits_digitsOf (n : Nat) : AreDigits (Decimal.digitsOf n) :=
  fun _ => Decimal.isDigit_of_mem_digitsOf

lemma areDigits_zeros (n : Nat) : AreDigits (List.replicate n '0') := by
  intro c hc
  rw [eq_of_mem_replicate hc]
  rfl

lemma areDigits_of_subset {ds es : List Char} (h : es ⊆ ds) (hd : AreDigits ds) : AreDigits es :=
  fun c hc => hd c (h hc)

namespace Decimal

/-- The fraction of a number, left out when it has no digits. -/
def fractionChars (frac : List Char) : List Char := if frac.isEmpty then [] else '.' :: frac

/-- The text of a number with a fraction or an exponent, and what it denotes. -/
inductive IsReal : List Char → Nat → Int → Prop where
  | point {whole frac : List Char} :
    whole ≠ [] →
    AreDigits whole →
    AreDigits frac →
    IsReal (whole ++ '.' :: frac) (digitsValue (whole ++ frac)) (-(frac.length : Int))
  | exponent {whole frac es : List Char} {n : Bool} :
    whole ≠ [] →
    AreDigits whole →
    AreDigits frac →
    es ≠ [] →
    AreDigits es →
    IsReal (whole ++ (fractionChars frac ++ 'e' :: (if n then '-' else '+') :: es))
      (digitsValue (whole ++ frac))
      ((if n then -(digitsValue es : Int) else digitsValue es) - (frac.length : Int))

lemma take_ne_nil {ds : List Char} {n : Nat} (h : ds ≠ []) (hn : 0 < n) : ds.take n ≠ [] := by
  rw [ne_eq, take_eq_nil_iff, not_or]
  exact ⟨by omega, h⟩

lemma toList_toString (n : Nat) : (toString n).toList = digitsOf n := by
  rw [Nat.toString_eq_ofList_toDigits, String.toList_ofList, digitsOf]

lemma padTwo_spec (n : Nat) :
    (padTwo n).toList ≠ [] ∧ AreDigits (padTwo n).toList ∧ digitsValue (padTwo n).toList = n := by
  rw [padTwo]
  split
  · rw [String.toList_append, toList_toString]
    exact ⟨by simp, (areDigits_zeros 1).append (areDigits_digitsOf n),
      (digitsValue_zero_cons _).trans (digitsValue_digitsOf n)⟩
  · rw [toList_toString]
    exact ⟨digitsOf_ne_nil n, areDigits_digitsOf n, digitsValue_digitsOf n⟩

lemma isReal_scientific {ds : List Char} (hne : ds ≠ []) (hds : AreDigits ds) (top : Int) :
    IsReal (scientific ds top).toList (digitsValue ds) (top - ((ds.drop 1).length : Int)) := by
  obtain ⟨pne, pds, pval⟩ := padTwo_spec top.natAbs
  have real : IsReal _ _ _ := .exponent (n := decide (top < 0)) (take_ne_nil hne Nat.one_pos)
    (areDigits_of_subset (take_subset 1 ds) hds)
    (areDigits_of_subset (drop_subset 1 ds) hds) pne pds
  rw [take_append_drop] at real
  convert real using 1
  · have hfrac : (if (ds.drop 1).isEmpty then "" else "." ++ String.ofList (ds.drop 1)).toList =
        fractionChars (ds.drop 1) := by
      rw [fractionChars]
      split <;> simp
    have hsign : (if top < 0 then "-" else "+").toList =
        [if decide (top < 0) = true then '-' else '+'] := by
      simp only [decide_eq_true_eq]
      split <;> rfl
    simp only [scientific, String.toList_append, hfrac, hsign, String.toList_ofList,
      append_assoc]
    rfl
  · simp only [decide_eq_true_eq]
    split <;> omega

lemma isReal_of_point {whole frac text : List Char} {d : Nat} {e : Int} (hne : whole ≠ [])
    (hw : AreDigits whole) (hf : AreDigits frac) (ht : text = whole ++ '.' :: frac)
    (hd : digitsValue (whole ++ frac) = d) (he : -(frac.length : Int) = e) : IsReal text d e := by
  rw [ht, ← hd, ← he]
  exact .point hne hw hf

/-- The text of a number has a fraction or an exponent, and denotes the number. -/
lemma isReal_layout (digits : Nat) (k : Int) :
    ∃ d e, IsReal (layout digits k).toList d e ∧ (d : ℚ) * 10 ^ e = digits * 10 ^ k := by
  obtain ⟨ds, hds⟩ : ∃ ds, ds = digitsOf digits := ⟨_, rfl⟩
  have hne : ds ≠ [] := hds ▸ digitsOf_ne_nil digits
  have hdig : AreDigits ds := hds ▸ areDigits_digitsOf digits
  have hval : digitsValue ds = digits := by rw [hds, digitsValue_digitsOf]
  have hlen : 0 < ds.length := length_pos_of_ne_nil hne
  simp only [layout, ← hds]
  split
  · refine ⟨digits, k, ?_, rfl⟩
    have real := isReal_scientific hne hdig (k + ds.length - 1)
    rwa [hval, length_drop,
      show k + (ds.length : Int) - 1 - ((ds.length - 1 : ℕ) : Int) = k by omega] at real
  · split
    · next hk =>
      refine ⟨digits * 10 ^ (k.toNat + 1), -1, ?_, ?_⟩
      · refine isReal_of_point (append_ne_nil_of_left_ne_nil hne _)
          (hdig.append (areDigits_zeros k.toNat)) (areDigits_zeros 1) ?_ ?_ rfl
        · rw [String.toList_append, String.toList_ofList]
          rfl
        · rw [append_assoc, ← replicate_add, digitsValue_append, length_replicate,
            hval, digitsValue_replicate_zero, Nat.add_zero]
      · push_cast
        rw [pow_succ, ← zpow_natCast, Int.toNat_of_nonneg hk]
        ring
    · split
      · next htop =>
        refine ⟨digits, k, ?_, rfl⟩
        have hw : 0 < (k + ds.length - 1 + 1).toNat := by omega
        refine isReal_of_point (take_ne_nil hne hw)
          (areDigits_of_subset (take_subset ..) hdig)
          (areDigits_of_subset (drop_subset (k + ds.length - 1 + 1).toNat ds) hdig) ?_ ?_ ?_
        · simp
        · rw [take_append_drop, hval]
        · rw [length_drop]
          omega
      · next htop =>
        refine ⟨digits, k, ?_, rfl⟩
        refine isReal_of_point (cons_ne_nil '0' []) (areDigits_zeros 1)
          ((areDigits_zeros (-(k + ds.length - 1) - 1).toNat).append hdig) ?_ ?_ ?_
        · simp
        · rw [cons_append, nil_append, digitsValue_zero_cons, digitsValue_append,
            digitsValue_replicate_zero, hval, Nat.zero_mul, Nat.zero_add]
        · rw [length_append, length_replicate]
          omega

end Decimal

namespace Parser

open Decimal Json

variable {cs ds rest r whole tail : List Char} {d : Nat} {e : Int} {b ch : Char} {negative : Bool}
  {t : Ty}

/-! ### Numbers -/

lemma sign_signChars {c : Char} (hc : c.isDigit = true) (negative : Bool) (cs : List Char) :
    sign (signChars negative ++ c :: cs) = (negative, c :: cs) := by
  cases negative with
  | true => rfl
  | false =>
    have h1 : c ≠ '-' := by
      rintro rfl
      cases hc
    have h2 : c ≠ '+' := by
      rintro rfl
      cases hc
    simp [signChars, sign, h1, h2]

lemma sign_digits (hne : ds ≠ []) (hds : AreDigits ds) (negative : Bool) (rest : List Char) :
    sign (signChars negative ++ (ds ++ rest)) = (negative, ds ++ rest) := by
  cases ds with
  | nil => exact absurd rfl hne
  | cons c ds => exact sign_signChars (hds c mem_cons_self) negative _

lemma wholeNumber_eq (hne : ds ≠ []) (hds : AreDigits ds) (stop : StopsBefore Char.isDigit rest)
    (negative : Bool) :
    wholeNumber (signChars negative ++ (ds ++ rest)) =
      some (.int (if negative then -(digitsValue ds : Int) else digitsValue ds), rest) := by
  simp [wholeNumber, sign_digits hne hds, digits_append hds stop, hne]

lemma exponentPart_eq {es : List Char} (hne : es ≠ []) (hes : AreDigits es) (n : Bool)
    (r : List Char) :
    exponentPart ('e' :: (if n then '-' else '+') :: (es ++ ';' :: r)) =
      some (if n then -(digitsValue es : Int) else digitsValue es, ';' :: r) := by
  have hd : digits (es ++ ';' :: r) = (es, ';' :: r) := digits_append hes (stopsBefore_cons.mpr rfl)
  cases n <;> simp [exponentPart, hd, hne]

lemma realNumber_point {frac : List Char} (hne : whole ≠ []) (hw : AreDigits whole)
    (hf : AreDigits frac) (stop : StopsBefore Char.isDigit tail) (negative : Bool) :
    realNumber (signChars negative ++ (whole ++ '.' :: (frac ++ tail))) =
      some (.float (toFloat negative (digitsValue (whole ++ frac))
        (((exponentPart tail).map Prod.fst).getD 0 - (frac.length : Int))),
        ((exponentPart tail).map Prod.snd).getD tail) := by
  have h1 : digits (whole ++ '.' :: (frac ++ tail)) = (whole, '.' :: (frac ++ tail)) :=
    digits_append hw (stopsBefore_cons.mpr rfl)
  simp [realNumber, sign_digits hne hw, h1, digits_append hf stop, hne]

lemma realNumber_exponent (hne : whole ≠ []) (hw : AreDigits whole)
    (he : exponentPart ('e' :: tail) = some (e, rest)) (negative : Bool) :
    realNumber (signChars negative ++ (whole ++ 'e' :: tail)) =
      some (.float (toFloat negative (digitsValue whole) e), rest) := by
  have h1 : digits (whole ++ 'e' :: tail) = (whole, 'e' :: tail) :=
    digits_append hw (stopsBefore_cons.mpr rfl)
  simp [realNumber, sign_digits hne hw, h1, he, hne]

lemma realNumber_eq (h : IsReal cs d e) (negative : Bool) (r : List Char) :
    realNumber (signChars negative ++ (cs ++ ';' :: r)) =
      some (.float (toFloat negative d e), ';' :: r) := by
  cases h with
  | @point whole frac hne hw hf =>
    rw [append_assoc, cons_append,
      realNumber_point hne hw hf (stopsBefore_cons.mpr rfl)]
    simp [exponentPart]
  | @exponent whole frac es n hne hw hf ene hes =>
    have he := exponentPart_eq ene hes n r
    rw [append_assoc, append_assoc, cons_append, cons_append]
    cases frac with
    | nil =>
      refine (realNumber_exponent hne hw he negative).trans ?_
      simp
    | cons f fs =>
      refine (realNumber_point hne hw hf (stopsBefore_cons.mpr rfl) negative).trans ?_
      rw [he]
      rfl

lemma exists_of_isReal (h : IsReal cs d e) :
    ∃ whole ch tail, cs = whole ++ ch :: tail ∧ whole ≠ [] ∧ AreDigits whole ∧
      (ch = '.' ∨ ch = 'e') := by
  cases h with
  | @point whole frac hne hw hf => exact ⟨whole, '.', frac, rfl, hne, hw, .inl rfl⟩
  | @exponent whole frac es n hne hw hf ene hes =>
    cases frac with
    | nil => exact ⟨whole, 'e', _, rfl, hne, hw, .inr rfl⟩
    | cons f fs => exact ⟨whole, '.', _, rfl, hne, hw, .inl rfl⟩

/-! ### Literals -/

variable {v : Datum}

/-- The text of a constant is a literal of the grammar, in front of the semicolon. -/
def ReadsLiteral (cs : List Char) (v : Datum) : Prop :=
  ∀ (text r : List Char), Cursor.trim text = cs ++ ';' :: r → Grammar.Literal text v (';' :: r)

lemma readsLiteral_int (hne : ds ≠ []) (hds : AreDigits ds) (negative : Bool) :
    ReadsLiteral (signChars negative ++ ds)
      (.int (if negative then -(digitsValue ds : Int) else digitsValue ds)) := by
  intro text r h
  refine .int ?_
  rw [h, append_assoc, wholeNumber_eq hne hds (stopsBefore_cons.mpr rfl)]

lemma exists_head_of_digits (hne : ds ≠ []) (hds : AreDigits ds) (negative : Bool)
    (rest : List Char) : ∃ b cs, signChars negative ++ (ds ++ rest) = b :: cs ∧
      (b.isDigit = true ∨ b = '-') := by
  cases negative with
  | true => exact ⟨'-', _, rfl, .inr rfl⟩
  | false =>
    cases ds with
    | nil => exact absurd rfl hne
    | cons b ds => exact ⟨b, _, rfl, .inl (hds b mem_cons_self)⟩

/-- A number with a fraction or an exponent reads back. -/
lemma readsLiteral_real (h : IsReal cs d e) :
    ReadsLiteral (signChars negative ++ cs) (.float (toFloat negative d e)) := by
  intro text r ht
  refine .float ?_
  rw [ht, append_assoc, realNumber_eq h]

lemma decode?_of_letter? {l : Char} (h : Escapes.letter? ch = some l) :
    Escapes.decode? l = some ch ∧ l ≠ '\'' := by
  obtain ⟨e, he, rfl⟩ := Option.map_eq_some_iff.mp h
  have hmem := mem_of_find?_eq_some he
  have hcode : e.2 = ch.toNat := by simpa using find?_some he
  have table : ∀ e ∈ Escapes.controls,
      Escapes.controls.lookup e.1 = some e.2 ∧ e.1 ≠ '\'' := by decide
  obtain ⟨hl, hq⟩ := table e hmem
  refine ⟨?_, hq⟩
  rw [Escapes.decode?, hl, hcode, Option.map_some, Char.ofNat_toNat]

lemma ne_newline_of_letter? (h : Escapes.letter? ch = none) : ch ≠ '\n' := by
  rintro rfl
  cases h

lemma charConstant_eq (ch : Char) (rest : List Char) :
    charConstant ('\'' :: ((Escapes.encode ch).toList ++ '\'' :: rest)) =
      some (.str (String.singleton ch), rest) := by
  cases h : Escapes.letter? ch with
  | some l =>
    obtain ⟨hd, hq⟩ := decode?_of_letter? h
    simp [Escapes.encode, h, charConstant, hd]
  | none => simp [Escapes.encode, h, charConstant, ne_newline_of_letter? h]

lemma readsLiteral_char (ch : Char) :
    ReadsLiteral ("'" ++ Escapes.encode ch ++ "'").toList (.str (String.singleton ch)) := by
  intro text r h
  have htext : ("'" ++ Escapes.encode ch ++ "'").toList ++ ';' :: r =
      '\'' :: ((Escapes.encode ch).toList ++ '\'' :: ';' :: r) := by simp
  refine .char ?_
  rw [h, htext, charConstant_eq]

/-! ### Constants -/

def IsSolid (cs : List Char) : Prop := ∃ ch tail, cs = ch :: tail ∧ Cursor.isSolid ch = true

lemma IsSolid.trim_append (h : IsSolid cs) (rest : List Char) :
    Cursor.trim (cs ++ rest) = cs ++ rest := by
  obtain ⟨ch, tail, rfl, hs⟩ := h
  rw [cons_append, Cursor.trim_solid hs]

lemma isSolid_of_isDigit (h : ch.isDigit = true) : Cursor.isSolid ch = true :=
  Cursor.isSolid_of (p := Char.isDigit) h (by decide)

lemma isSolid_number (hne : ds ≠ []) (hds : AreDigits ds) (negative : Bool) (rest : List Char) :
    IsSolid (signChars negative ++ (ds ++ rest)) := by
  obtain ⟨b, bs, hb, hdigit⟩ := exists_head_of_digits hne hds negative rest
  refine ⟨b, bs, hb, ?_⟩
  obtain hdigit | rfl := hdigit
  · exact isSolid_of_isDigit hdigit
  · decide

lemma toList_toString_int (i : Int) :
    (toString i).toList = signChars (decide (i < 0)) ++ digitsOf i.natAbs := by
  cases i with
  | ofNat n => exact toList_toString n
  | negSucc n =>
    rw [show toString (Int.negSucc n) = "-" ++ toString (n + 1) from rfl, String.toList_append,
      toList_toString, decide_eq_true (Int.negSucc_lt_zero n)]
    rfl

lemma lower_digits (hds : AreDigits ds) : ∀ ch ∈ ds, Letters.lower ch = ch :=
  fun ch h => Letters.lower_of_isDigit (hds ch h)

lemma lower_signChars (negative : Bool) : ∀ ch ∈ signChars negative, Letters.lower ch = ch := by
  cases negative with
  | false => exact fun _ h => absurd h not_mem_nil
  | true =>
    intro ch h
    rw [mem_singleton.mp h]
    decide

lemma lower_isReal (h : IsReal cs d e) : ∀ ch ∈ cs, Letters.lower ch = ch := by
  intro ch hch
  cases h with
  | point _ hw hf =>
    rw [mem_append, mem_cons] at hch
    obtain hch | rfl | hch := hch
    · exact lower_digits hw ch hch
    · decide
    · exact lower_digits hf ch hch
  | @exponent whole frac es n _ hw hf _ hes =>
    have hfrac : ch ∈ fractionChars frac → Letters.lower ch = ch := by
      intro hc
      rw [fractionChars] at hc
      split at hc
      · cases hc
      · obtain rfl | hc := mem_cons.mp hc
        · decide
        · exact lower_digits hf ch hc
    simp only [mem_append, mem_cons] at hch
    obtain hch | hch | rfl | rfl | hch := hch
    · exact lower_digits hw ch hch
    · exact hfrac hch
    · decide
    · cases n <;> decide
    · exact lower_digits hes ch hch

lemma ofFloat_isReal {x : Float} {mant : Nat} {exp : Int}
    (h : Binary64.view x = .finite negative mant exp) :
    ∃ cs d e, (ofFloat x).toList = signChars negative ++ cs ∧ IsReal cs d e ∧
      toFloat negative d e = x := by
  have hsign : (if negative then "-" else "").toList = signChars negative := by
    cases negative <;> rfl
  obtain ⟨hf, hx⟩ := Binary64.view_eq_finite h
  by_cases hm : mant = 0
  · refine ⟨['0', '.', '0'], 0, -1, ?_, .point (cons_ne_nil '0' []) (areDigits_zeros 1)
      (areDigits_zeros 1), ?_⟩
    · simp only [ofFloat, h, hm, if_true, String.toList_append, hsign]
      rfl
    · have hmag : Binary64.magnitude mant exp = Binary64.magnitude 0 (-1074) := by
        rw [hm, Binary64.magnitude, Binary64.magnitude, if_pos (by decide), if_pos (by decide)]
      have zero : Binary64.IsFinite 0 (-1074) := ⟨by decide, le_refl _, by decide, .inl rfl⟩
      rw [toFloat, if_pos (.inl rfl), Binary64.ofRatio_zero, Binary64.assemble_of_isFinite zero,
        Option.getD_some, hx, hmag]
  · obtain ⟨d, e, real, value⟩ := isReal_layout (shortest mant exp).1 (shortest mant exp).2
    refine ⟨_, d, e, ?_, real, ?_⟩
    · rcases hs : shortest mant exp with ⟨digits, k⟩
      simp only [ofFloat, h, hm, if_false, hs, String.toList_append, hsign]
    · have dn := shortest_denotes hf (Nat.pos_of_ne_zero hm)
      rw [← value] at dn
      exact dn.toFloat_eq h

/-- A constant whose value is of its type. -/
inductive Holds : Ty → Datum → Prop where
  | int (i : Int) : Holds .int (.int i)
  | bool (b : Bool) : Holds .bool (.bool b)
  | float {x : Float} {negative : Bool} {mant : Nat} {exp : Int} :
    Binary64.view x = .finite negative mant exp →
    Holds (.name "float") (.float x)
  | char (ch : Char) : Holds (.name "char") (.str (String.singleton ch))
  | pointer (t : Ty) : Holds (.ptr t) (.int 0)

lemma int_text_reads (i : Int) :
    Letters.lowerText (Datum.int i).text = toString i ∧ IsSolid (toString i).toList ∧
      ReadsLiteral (toString i).toList (.int i) := by
  have htext := toList_toString_int i
  have hne := digitsOf_ne_nil i.natAbs
  have hds := areDigits_digitsOf i.natAbs
  refine ⟨?_, ?_, ?_⟩
  · refine Letters.lowerText_of_isLower fun ch hch => ?_
    rw [show (Datum.int i).text = toString i from rfl, htext, mem_append] at hch
    exact hch.elim (lower_signChars _ ch) (lower_digits hds ch)
  · rw [htext, ← append_nil (digitsOf _)]
    exact isSolid_number hne hds _ _
  · rw [htext]
    have := readsLiteral_int hne hds (decide (i < 0))
    rwa [digitsValue_digitsOf, show (if decide (i < 0) = true then -(i.natAbs : Int) else i.natAbs) = i by
      simp only [decide_eq_true_eq]; split <;> omega] at this

lemma renderValue_eq {v : Datum} {s : String} (ht : t.isChar = .ok false)
    (hs : Letters.lowerText v.text = s) : renderValue t v = .ok s := by
  unfold renderValue
  rw [ht, ← hs]
  rfl

lemma renderValue_reads {v : Datum} (h : Holds t v) :
    ∃ s, renderValue t v = .ok s ∧ IsSolid s.toList ∧ ReadsLiteral s.toList v := by
  cases h with
  | int i =>
    obtain ⟨hlow, solid, reads⟩ := int_text_reads i
    exact ⟨toString i, renderValue_eq (by cbv) hlow, solid, reads⟩
  | bool b =>
    refine ⟨if b then "true" else "false", renderValue_eq (by cbv) ?_, ?_, fun _ _ h => .bool h⟩
    · cases b <;> cbv
    · cases b
      · exact ⟨'f', _, rfl, rfl⟩
      · exact ⟨'t', _, rfl, rfl⟩
  | @float x negative mant exp hx =>
    obtain ⟨cs, d, e, htext, real, hback⟩ := ofFloat_isReal hx
    obtain ⟨whole, ch, tail, hcs, hne, hw, -⟩ := exists_of_isReal real
    refine ⟨ofFloat x, renderValue_eq (by cbv) ?_, ?_, ?_⟩
    · refine Letters.lowerText_of_isLower fun ch hch => ?_
      rw [show (Datum.float x).text = ofFloat x from rfl, htext, mem_append] at hch
      exact hch.elim (lower_signChars _ ch) (lower_isReal real ch)
    · rw [htext, hcs]
      exact isSolid_number hne hw _ _
    · rw [htext, ← hback]
      exact readsLiteral_real real
  | char ch =>
    refine ⟨"'" ++ Escapes.encode ch ++ "'", ?_, ?_, readsLiteral_char ch⟩
    · rw [renderValue, show (Ty.name "char").isChar = .ok true by cbv]
      simp
    · rw [String.toList_append, String.toList_append]
      exact ⟨'\'', _, rfl, rfl⟩
  | pointer t =>
    obtain ⟨hlow, solid, reads⟩ := int_text_reads 0
    exact ⟨toString (0 : Int), renderValue_eq rfl hlow, solid, reads⟩

end Parser

end BrilKit
