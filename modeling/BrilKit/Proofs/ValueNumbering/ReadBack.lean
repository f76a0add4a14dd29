import BrilKit.Proofs.Run.Straight
import BrilKit.Proofs.ValueNumbering.Registers

/-!
# Texts of values that read back

The text of a value is read word by word: a word is the number of a value, a constant or the name of
a variable. Two values of one text are then the same.
-/

namespace BrilKit

open List Outcome

namespace Numeral

variable {c : Char} {cs : List Char} {x : String}

lemma toNat_of_isAlpha (h : c.isAlpha = true) : 65 ≤ c.toNat ∧ c.toNat ≤ 122 := by
  simp only [Char.isAlpha, Char.isUpper, Char.isLower, Bool.or_eq_true, Bool.and_eq_true,
    decide_eq_true_eq] at h
  obtain ⟨low, high⟩ | ⟨low, high⟩ := h
  · have low : 65 ≤ c.toNat := low
    have high : c.toNat ≤ 90 := high
    omega
  · have low : 97 ≤ c.toNat := low
    have high : c.toNat ≤ 122 := high
    omega

lemma not_isBlank_of_isNamePart (h : Parser.isNamePart c = true) : Letters.isBlank c = false := by
  simp only [Parser.isNamePart, Parser.isNameStart, Bool.or_eq_true, decide_eq_true_eq] at h
  obtain ((((rfl | rfl) | h) | rfl) | h) := h
  · decide
  · decide
  · have := toNat_of_isAlpha h
    simp only [Letters.isBlank, Bool.or_eq_false_iff, Bool.and_eq_false_iff,
      decide_eq_false_iff_not]
    omega
  · decide
  · exact not_isBlank_of_isDigit h

lemma not_isDigit_of_isNameStart (h : Parser.isNameStart c = true) : c.isDigit = false := by
  simp only [Parser.isNameStart, Bool.or_eq_true, decide_eq_true_eq] at h
  obtain ((rfl | rfl) | h) := h
  · decide
  · decide
  · have := toNat_of_isAlpha h
    simp only [Char.isDigit, Bool.and_eq_false_iff, decide_eq_false_iff_not]
    refine .inr fun high => ?_
    have high : c.toNat ≤ 57 := high
    omega

lemma read?_name (h : Parser.isName x = true) : read? x = none := by
  obtain ⟨c, cs, hx, hc, hcs⟩ := Parser.isName_cons h
  have digit := not_isDigit_of_isNameStart hc
  have solid : ∀ a ∈ x.toList, Letters.isBlank a = false := by
    rw [hx, forall_mem_cons]
    refine ⟨not_isBlank_of_isNamePart (by simp [Parser.isNamePart, hc]), ?_⟩
    exact fun a ha => not_isBlank_of_isNamePart (hcs a ha)
  have run : digitRun (c :: cs) = none := by
    unfold digitRun
    split <;> simp_all
  rw [read?, strip_eq solid, hx]
  split
  · next heq =>
    split at heq
    · next minus =>
      cases minus
      exact absurd hc (by decide)
    · next plus =>
      cases plus
      exact absurd hc (by decide)
    · cases heq
      rw [run]
      rfl

lemma not_isPlain_name (h : Parser.isName x = true) : isPlain x = false := by
  obtain ⟨c, cs, hx, hc, _⟩ := Parser.isName_cons h
  simp [isPlain, hx, not_isDigit_of_isNameStart hc]

lemma isPlain_toString (n : Nat) : isPlain (toString n) = true := by
  have hne : (toString n).toList ≠ [] := by
    rw [Decimal.toList_toString]
    exact Decimal.digitsOf_ne_nil n
  have nonempty : toString n ≠ "" := fun h => hne (by rw [h]; rfl)
  have digits : ∀ c ∈ (toString n).toList, c.isDigit = true := by
    rw [Decimal.toList_toString]
    exact areDigits_digitsOf n
  simpa [isPlain, nonempty] using digits

end Numeral

namespace WordOp

variable {op : String} {a b v : Val} {vs ws : List Val}

lemma compute_swap (hop : op ∈ ["add", "mul", "eq"]) : compute op [b, a] = compute op [a, b] := by
  simp only [mem_cons, not_mem_nil, or_false] at hop
  obtain rfl | rfl | rfl := hop <;> cases a <;> cases b <;>
    simp [compute, arithmetic, comparison, CoreOp.comparison, CoreOp.logic, add_comm, mul_comm,
      BEq.comm]

lemma exists_operands (h : compute op vs = some v) : (∃ a, vs = [a]) ∨ ∃ a b, vs = [a, b] := by
  unfold compute at h
  split at h
  · exact .inr ⟨_, _, rfl⟩
  · exact .inr ⟨_, _, rfl⟩
  · exact .inl ⟨_, rfl⟩
  · cases h

lemma compute_perm (hop : op ∈ ["add", "mul", "eq"]) (p : ws.Perm vs) (h : compute op vs = some v) :
    compute op ws = some v := by
  obtain ⟨a, rfl⟩ | ⟨a, b, rfl⟩ := exists_operands h
  · rw [perm_singleton.mp p, h]
  · obtain ⟨c, d, rfl⟩ := length_eq_two.mp p.length_eq
    have hc : c = a ∨ c = b := by simpa using p.subset mem_cons_self
    obtain rfl | rfl := hc
    · rw [singleton_perm_singleton.mp ((perm_cons c).mp p), h]
    · have p := (perm_cons c).mp (p.trans (.swap c a []))
      rw [singleton_perm_singleton.mp p, compute_swap hop, h]

end WordOp

namespace ValueNumbering.Register

open Machine (Env)
open Words (write)

section Contains

variable {part a b : List Char} {op : String} {ws : List String}

lemma isPrefixOf_append_blank (hp : ' ' ∉ part) :
    part.isPrefixOf (a ++ ' ' :: b) = part.isPrefixOf a := by
  induction part generalizing a with
  | nil => simp
  | cons c part ih =>
    obtain ⟨hc, hp⟩ := not_or.mp (mem_cons.not.mp hp)
    cases a with
    | nil => simpa [List.isPrefixOf] using fun h => absurd h.symm hc
    | cons d a => simp [List.isPrefixOf, ih hp]

lemma occurs_append_blank (hne : part ≠ []) (hp : ' ' ∉ part) :
    occurs part (a ++ ' ' :: b) = (occurs part a || occurs part b) := by
  induction a with
  | nil =>
    have first : part.isPrefixOf ([] ++ ' ' :: b) = part.isPrefixOf [] := isPrefixOf_append_blank hp
    show (part.isPrefixOf (' ' :: b) || occurs part b) = _
    rw [show part.isPrefixOf (' ' :: b) = _ from first]
    cases part with
    | nil => exact absurd rfl hne
    | cons c part => rfl
  | cons c a ih =>
    have first : part.isPrefixOf (c :: a ++ ' ' :: b) = part.isPrefixOf (c :: a) :=
      isPrefixOf_append_blank hp
    rw [cons_append] at first ⊢
    rw [occurs, first, ih, occurs, Bool.or_assoc]

lemma subset_of_occurs (h : occurs part a = true) : part ⊆ a := by
  induction a with
  | nil =>
    rw [isEmpty_iff.mp h]
    exact nil_subset _
  | cons c a ih =>
    obtain h | h := Bool.or_eq_true_iff.mp h
    · exact ( isPrefixOf_iff_prefix.mp h).subset
    · exact subset_cons_of_subset c (ih h)

lemma contains_eq_false {t : String} (h : 'c' ∉ t.toList) : contains t "const" = false := by
  rw [Bool.eq_false_iff]
  exact fun occurs => h (subset_of_occurs occurs (by decide))

lemma contains_write (v : Val) : contains (write v) "const" = false := by
  apply contains_eq_false
  cases v with
  | int i =>
    intro h
    obtain h | h := Numeral.sign_or_digit h
    · cases h
    · cases h
  | bool p => cases p <;> decide

lemma contains_toString (n : Nat) : contains (toString n) "const" = false := contains_write (.int n)

lemma toList_textOf (comm : List String) (op : String) (hne : ws ≠ []) :
    ∃ vs, vs.Perm ws ∧ (op ∉ comm → vs = ws) ∧
      (textOf comm op ws).toList = [' '].intercalate ((op :: vs).map String.toList) := by
  have joined : ∀ {vs : List String}, vs ≠ [] →
      (op ++ " " ++ " ".intercalate vs).toList =
        [' '].intercalate ((op :: vs).map String.toList) := by
    intro vs hne
    obtain ⟨v, vs, rfl⟩ := exists_cons_of_ne_nil hne
    simp
  unfold textOf
  by_cases hc : op ∈ comm
  · have perm : (sortNames ws).Perm ws := mergeSort_perm ws _
    have some : sortNames ws ≠ [] := fun h => hne (nil_perm.mp (h ▸ perm))
    refine ⟨sortNames ws, perm, absurd hc, ?_⟩
    rw [if_pos (contains_iff_mem.mpr hc), joined some]
  · refine ⟨ws, .refl ws, fun _ => rfl, ?_⟩
    rw [if_neg (by simpa using hc), joined hne]

/-- The text of an operation contains the word for constants only if a word of it does. -/
lemma contains_textOf {comm : List String} (hne : ws ≠ [])
    (hop : contains op "const" = false) (hws : ∀ w ∈ ws, contains w "const" = false) :
    contains (textOf comm op ws) "const" = false := by
  obtain ⟨vs, perm, _, text⟩ := toList_textOf comm op hne
  have joined : ∀ {vs : List String}, (∀ v ∈ vs, contains v "const" = false) →
      occurs "const".toList ([' '].intercalate (vs.map String.toList)) = false := by
    intro vs h
    induction vs with
    | nil => rfl
    | cons v vs ih =>
      obtain ⟨hv, hvs⟩ := forall_mem_cons.mp h
      cases vs with
      | nil =>
        rw [map_singleton, intercalate_singleton]
        exact hv
      | cons v' vs =>
        rw [map_cons, map_cons, intercalate_cons_cons, ← map_cons,
          append_assoc, singleton_append, occurs_append_blank (by decide) (by decide),
          ih hvs]
        rw [show occurs "const".toList v.toList = false from hv]
        rfl
  rw [contains, text]
  refine joined (forall_mem_cons.mpr ⟨hop, ?_⟩)
  exact fun v hv => hws v (perm.subset hv)

end Contains

section Reading

/-- A name that cannot be taken for a part of the text of a value. -/
def Proper (x : String) : Prop :=
  Parser.isName x = true ∧ x ≠ "True" ∧ x ≠ "False" ∧ contains x "const" = false

instance (x : String) : Decidable (Proper x) := inferInstanceAs (Decidable (_ ∧ _))

/-- A constant that cannot be taken for a number below a bound. -/
def Apart (bound : Nat) : Val → Prop
  | .int m => m < 0 ∨ bound ≤ m
  | .bool _ => True

instance (bound : Nat) : (v : Val) → Decidable (Apart bound v)
  | .int _ => inferInstanceAs (Decidable (_ ∨ _))
  | .bool _ => .isTrue trivial

def literal (w : String) : Option Val :=
  if w = "True" then some (.bool true)
  else if w = "False" then some (.bool false)
  else (Numeral.read? w).map .int

/-- The value of a word: that of a number below a bound, a constant or that of a variable. -/
def word (bound : Nat) (worth : Nat → Option Val) (f : Env Val) (w : String) :
    Option Val :=
  if Numeral.isPlain w ∧ Decimal.digitsValue w.toList < bound then
    worth (Decimal.digitsValue w.toList)
  else (literal w).or (f w)

/-- The value that a text stands for: a variable alone, a constant or an operation on words. -/
def meaning (bound : Nat) (worth : Nat → Option Val) (f : Env Val)
    (t : String) : Option Val :=
  match (t.toList.splitOn ' ').map String.ofList with
  | [] => none
  | [x] => f x
  | op :: w :: ws =>
    if op = "const" then literal w
    else ((w :: ws).mapM (word bound worth f)).bind (WordOp.compute op)

variable {bound n : Nat} {worth worth' : Nat → Option Val} {f : Env Val}
  {x op t : String} {ws : List String} {v : Val}

lemma literal_write (v : Val) : literal (write v) = some v := by
  cases v with
  | int i =>
    have h1 : write (.int i) ≠ "True" := Numeral.text_ne_bool i true
    have h2 : write (.int i) ≠ "False" := Numeral.text_ne_bool i false
    have read := Words.read_write (i := i)
    unfold Numeral.read at read
    unfold literal
    rw [if_neg h1, if_neg h2]
    cases found : Numeral.read? (write (.int i)) with
    | none =>
      rw [found] at read
      cases read
    | some j =>
      rw [found] at read
      cases read
      rfl
  | bool p => cases p <;> rfl

lemma Proper.literal (h : Proper x) : literal x = none := by
  obtain ⟨name, h1, h2, _⟩ := h
  rw [Register.literal, if_neg h1, if_neg h2, Numeral.read?_name name]
  rfl

lemma Proper.blank_not_mem (h : Proper x) : ' ' ∉ x.toList := by
  obtain ⟨c, cs, hx, hc, hcs⟩ := Parser.isName_cons h.1
  rw [hx, mem_cons, not_or]
  refine ⟨?_, fun blank => absurd (hcs ' ' blank) (by decide)⟩
  rintro rfl
  exact absurd hc (by decide)

lemma word_toString (h : n < bound) : word bound worth f (toString n) = worth n := by
  have value : Decimal.digitsValue (toString n).toList = n := by
    rw [Decimal.toList_toString, Decimal.digitsValue_digitsOf]
  rw [word, value, if_pos ⟨Numeral.isPlain_toString n, h⟩]

lemma word_write (h : Apart bound v) :
    word bound worth f (write v) = some v := by
  have apart : ¬ (Numeral.isPlain (write v) ∧ Decimal.digitsValue (write v).toList < bound) := by
    rintro ⟨plain, lt⟩
    cases v with
    | int m =>
      have text : (write (.int m)).toList =
          signChars (decide (m < 0)) ++ Decimal.digitsOf m.natAbs :=
        Parser.toList_toString_int m
      rcases lt_or_ge m 0 with neg | pos
      · rw [Numeral.isPlain, text] at plain
        simp [neg, signChars] at plain
      · rw [text, decide_eq_false (not_lt.mpr pos)] at lt
        have value :
            Decimal.digitsValue (signChars false ++ Decimal.digitsOf m.natAbs) = m.natAbs :=
          Decimal.digitsValue_digitsOf m.natAbs
        have : m < 0 ∨ bound ≤ m := h
        omega
    | bool p => cases p <;> exact absurd plain (by decide)
  rw [word, if_neg apart, literal_write]
  rfl

lemma Proper.word (h : Proper x) : word bound worth f x = f x := by
  rw [Register.word, if_neg (by simp [Numeral.not_isPlain_name h.1]), h.literal]
  rfl

lemma words_eq {ws : List String} (hne : ws ≠ []) (solid : ∀ w ∈ ws, ' ' ∉ w.toList)
    (text : t.toList = [' '].intercalate (ws.map String.toList)) :
    (t.toList.splitOn ' ').map String.ofList = ws := by
  rw [text, splitOn_intercalate ' ' (by simpa using solid) (by simpa using hne)]
  simp

lemma meaning_textOfConst (v : Val) :
    meaning bound worth f (textOfConst v.toDatum) = some v := by
  have words :
      ((textOfConst v.toDatum).toList.splitOn ' ').map String.ofList = ["const", write v] := by
    apply words_eq (cons_ne_nil _ _)
    · simpa using Words.blank_not_mem_write v
    · simpa using toList_textOfConst v
  unfold meaning
  rw [words]
  exact literal_write v

lemma Proper.meaning (h : Proper x) : meaning bound worth f x = f x := by
  have words : (x.toList.splitOn ' ').map String.ofList = [x] := by
    apply words_eq (cons_ne_nil _ _)
    · simpa using h.blank_not_mem
    · simp
  unfold Register.meaning
  rw [words]

/-- The text of an operation stands for what the operation gives. -/
lemma meaning_textOf (hne : ws ≠ []) (hop : op ≠ "const") (solid : ∀ w ∈ op :: ws, ' ' ∉ w.toList)
    {vs : List Val} (hws : Forall₂ (fun w v => word bound worth f w = some v) ws vs)
    (h : WordOp.compute op vs = some v) :
    meaning bound worth f (textOf Scope.pure.commutative op ws) = some v := by
  obtain ⟨ws', perm, same, text⟩ := toList_textOf Scope.pure.commutative op hne
  have words : ((textOf Scope.pure.commutative op ws).toList.splitOn ' ').map String.ofList =
      op :: ws' := by
    refine words_eq (cons_ne_nil _ _) ?_ text
    rw [forall_mem_cons] at solid ⊢
    exact ⟨solid.1, fun w hw => solid.2 w (perm.subset hw)⟩
  obtain ⟨vs', hws', value⟩ : ∃ vs',
      Forall₂ (fun w v => word bound worth f w = some v) ws' vs' ∧
        WordOp.compute op vs' = some v := by
    by_cases hc : op ∈ Scope.pure.commutative
    · obtain ⟨vs', hws', perm'⟩ := perm_comp_forall₂ perm hws
      exact ⟨vs', hws', WordOp.compute_perm hc perm' h⟩
    · rw [same hc]
      exact ⟨vs, hws, h⟩
  unfold meaning
  rw [words]
  cases ws' with
  | nil => exact absurd (nil_perm.mp perm) hne
  | cons w ws' =>
    show (if op = "const" then _ else _) = _
    rw [if_neg hop, mapM_eq_some.mpr hws']
    exact value

lemma meaning_mono (more : ∀ n v, worth n = some v → worth' n = some v)
    (h : meaning bound worth f t = some v) : meaning bound worth' f t = some v := by
  have words : ∀ w v, word bound worth f w = some v → word bound worth' f w = some v := by
    intro w v hw
    unfold word at hw ⊢
    split at hw
    · next number =>
      rw [if_pos number]
      exact more _ _ hw
    · next number =>
      rw [if_neg number]
      exact hw
  unfold meaning at h ⊢
  split at h
  · cases h
  · exact h
  · split at h
    · next constant =>
      rw [if_pos constant]
      exact h
    · next operation =>
      obtain ⟨vs, hvs, h⟩ := Option.bind_eq_some_iff.mp h
      rw [mapM_eq_some] at hvs
      rw [if_neg operation, mapM_eq_some.mpr (hvs.imp words)]
      exact h

end Reading

end ValueNumbering.Register

end BrilKit
