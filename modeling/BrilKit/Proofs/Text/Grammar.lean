import BrilKit.Proofs.Text.Tokens

/-!
# The grammar of the text form

Every production is a relation between the text in which it starts, its value and the text behind
it. A terminal takes the longest match behind blanks and comments. A derivation of a statement has a
priority: four for a constant, three for an operation with a result, two for one without, one for a
label; the priority of a program is the sum over its statements.

There are no reserved words, so a text can have more than one derivation: `x = const5;` is the
constant five and also the operation `const5`. `Resolves text p` says that `p` has a derivation
whose priority is above that of every derivation of another program, and `RunsGrammar parser` that a
parser finds such a program. `Statement.reads` shows that the reader follows every derivation of a
statement unless one of higher priority ends at the same place; `Derives.reads` lifts this to
programs and `runsGrammar_parse` concludes that the reader runs the grammar.

The reader's fuel never ends before the text, because every repeated part takes a character: this is
what the lemmas `length_lt` and `length_le` of the productions are for.
-/

namespace BrilKit

open List

namespace Parser

/-- An operand as it is written. -/
inductive Operand where
  | func (n : String)
  | arg (n : String)
  | label (n : String)

/-- The operands of an operation are told apart by their marks. -/
def Operand.addTo (os : Operands) : Operand → Operands
  | .func n => { os with funcs := os.funcs ++ [n] }
  | .arg n => { os with args := os.args ++ [n] }
  | .label n => { os with labels := os.labels ++ [n] }

def operationOf (op : String) (ts : List Operand) : Instr :=
  let os := ts.foldl Operand.addTo {}
  { op := some op, args := listField os.args, funcs := listField os.funcs,
    labels := listField os.labels }

end Parser

namespace Grammar

open BrilKit.Cursor BrilKit.Parser

/-! ### Terminals -/

/-- A name, which is as long as it can be. -/
structure Ident (cs : List Char) (n : String) (rest : List Char) : Prop where
  trim_eq : trim cs = n.toList ++ rest
  named : isName n = true
  stop : StopsBefore isNamePart rest

/-- A name behind a mark: that of a function behind `@`, that of a label behind a point. -/
structure Marked (mark : Char) (cs : List Char) (n : String) (rest : List Char) : Prop where
  trim_eq : trim cs = mark :: (n.toList ++ rest)
  named : isName n = true
  stop : StopsBefore isNamePart rest

def Word (w : String) (cs rest : List Char) : Prop := trim cs = w.toList ++ rest

/-! ### Productions -/

inductive Literal (cs : List Char) : Datum → List Char → Prop where
  | int {v : Datum} {rest : List Char} :
    wholeNumber (trim cs) = some (v, rest) →
    Literal cs v rest
  | bool {b : Bool} {rest : List Char} :
    Word (if b then "true" else "false") cs rest →
    Literal cs (.bool b) rest
  | float {v : Datum} {rest : List Char} :
    realNumber (trim cs) = some (v, rest) →
    Literal cs v rest
  | null {rest : List Char} :
    Word "nullptr" cs rest →
    Literal cs (.int 0) rest
  | char {v : Datum} {rest : List Char} :
    charConstant (trim cs) = some (v, rest) →
    Literal cs v rest

inductive Typed : List Char → Ty → List Char → Prop where
  | app {cs cs₁ cs₂ cs₃ rest : List Char} {n : String} {t : Ty} :
    Ident cs n cs₁ →
    Word "<" cs₁ cs₂ →
    Typed cs₂ t cs₃ →
    Word ">" cs₃ rest →
    Typed cs (.app n t) rest
  | name {cs rest : List Char} {n : String} :
    Ident cs n rest →
    Typed cs (.name n) rest

/-- A type behind a colon, which may be left out. -/
inductive Annotation (cs : List Char) : Option Ty → List Char → Prop where
  | bare : Annotation cs none cs
  | typed {mid rest : List Char} {t : Ty} :
    Word ":" cs mid →
    Typed mid t rest →
    Annotation cs (some t) rest

/-- Repetition of a production. -/
inductive Many {α : Type} (P : List Char → α → List Char → Prop) :
    List Char → List α → List Char → Prop where
  | nil {cs : List Char} : Many P cs [] cs
  | cons {cs mid rest : List Char} {x : α} {xs : List α} :
    P cs x mid →
    Many P mid xs rest →
    Many P cs (x :: xs) rest

inductive Argument (cs : List Char) : Operand → List Char → Prop where
  | func {n : String} {rest : List Char} : Marked '@' cs n rest → Argument cs (.func n) rest
  | label {n : String} {rest : List Char} : Marked '.' cs n rest → Argument cs (.label n) rest
  | arg {n : String} {rest : List Char} : Ident cs n rest → Argument cs (.arg n) rest

inductive Operation (cs : List Char) : Instr → List Char → Prop where
  | mk {mid rest : List Char} {op : String} {ts : List Operand} :
    Ident cs op mid →
    Many Argument mid ts rest →
    Operation cs (operationOf op ts) rest

/-- The left side of an assignment. -/
inductive Target (cs : List Char) : String → Option Ty → List Char → Prop where
  | mk {cs₁ cs₂ rest : List Char} {d : String} {t : Option Ty} :
    Ident cs d cs₁ →
    Annotation cs₁ t cs₂ →
    Word "=" cs₂ rest →
    Target cs d t rest

/-- What stands right of an assignment of a constant, up to the semicolon. -/
inductive Constant (cs : List Char) : Datum → List Char → Prop where
  | mk {cs₁ cs₂ rest : List Char} {v : Datum} :
    Word "const" cs cs₁ →
    Literal cs₁ v cs₂ →
    Word ";" cs₂ rest →
    Constant cs v rest

/-- A statement with its priority. -/
inductive Statement (cs : List Char) : Instr × Nat → List Char → Prop where
  | const {mid rest : List Char} {d : String} {t : Option Ty} {v : Datum} :
    Target cs d t mid →
    Constant mid v rest →
    Statement cs ({ op := some "const", dest := some d, type := t, value := some v }, 4) rest
  | value {mid behind rest : List Char} {d : String} {t : Option Ty} {i : Instr} :
    Target cs d t mid →
    Operation mid i behind →
    Word ";" behind rest →
    Statement cs ({ i with dest := some d, type := t }, 3) rest
  | effect {mid rest : List Char} {i : Instr} :
    Operation cs i mid →
    Word ";" mid rest →
    Statement cs (i, 2) rest
  | label {mid rest : List Char} {l : String} :
    Marked '.' cs l mid →
    Word ":" mid rest →
    Statement cs ({ label := some l }, 1) rest

inductive Parameter (cs : List Char) : Param → List Char → Prop where
  | mk {cs₁ cs₂ rest : List Char} {n : String} {t : Ty} :
    Ident cs n cs₁ →
    Word ":" cs₁ cs₂ →
    Typed cs₂ t rest →
    Parameter cs { name := some n, type := some t } rest

/-- A parameter behind a comma. -/
inductive Further (cs : List Char) : Param → List Char → Prop where
  | mk {mid rest : List Char} {p : Param} :
    Word "," cs mid →
    Parameter mid p rest →
    Further cs p rest

/-- The parameters of a function in parentheses, which may be left out. -/
inductive Parameters (cs : List Char) : List Param → List Char → Prop where
  | bare : Parameters cs [] cs
  | empty {mid rest : List Char} :
    Word "(" cs mid →
    Word ")" mid rest →
    Parameters cs [] rest
  | listed {cs₁ cs₂ cs₃ rest : List Char} {p : Param} {ps : List Param} :
    Word "(" cs cs₁ →
    Parameter cs₁ p cs₂ →
    Many Further cs₂ ps cs₃ →
    Word ")" cs₃ rest →
    Parameters cs (p :: ps) rest

/-- A function with the sum of its statements' priorities. -/
inductive Function (cs : List Char) : Func × Nat → List Char → Prop where
  | mk {cs₁ cs₂ cs₃ cs₄ cs₅ rest : List Char} {n : String} {ps : List Param} {t : Option Ty}
      {is : List (Instr × Nat)} :
    Marked '@' cs n cs₁ →
    Parameters cs₁ ps cs₂ →
    Annotation cs₂ t cs₃ →
    Word "\x7b" cs₃ cs₄ →
    Many Statement cs₄ is cs₅ →
    Word "\x7d" cs₅ rest →
    Function cs ({ name := some n, args := if ps.isEmpty then none else some ps, type := t,
                   instrs := some (is.map Prod.fst) }, (is.map Prod.snd).sum) rest

inductive Member (cs : List Char) : Param → List Char → Prop where
  | mk {mid rest : List Char} {p : Param} :
    Parameter cs p mid →
    Word ";" mid rest →
    Member cs p rest

inductive Declaration (cs : List Char) : Struct → List Char → Prop where
  | mk {cs₁ cs₂ cs₃ cs₄ cs₅ rest : List Char} {n : String} {ms : List Param} :
    Word "struct" cs cs₁ →
    Ident cs₁ n cs₂ →
    Word "=" cs₂ cs₃ →
    Word "\x7b" cs₃ cs₄ →
    Many Member cs₄ ms cs₅ →
    Word "\x7d" cs₅ rest →
    Declaration cs { name := some n, members := some ms } rest

inductive Item (cs : List Char) : (Func ⊕ Struct) × Nat → List Char → Prop where
  | func {f : Func} {m : Nat} {rest : List Char} :
    Function cs (f, m) rest →
    Item cs (.inl f, m) rest
  | struct {s : Struct} {rest : List Char} :
    Declaration cs s rest →
    Item cs (.inr s, 0) rest

def program (xs : List (Func ⊕ Struct)) : Program where
  functions := some (xs.filterMap Sum.getLeft?)
  structs := if (xs.filterMap Sum.getRight?).isEmpty then none
    else some (xs.filterMap Sum.getRight?)

/-- A text has a derivation with this value and this priority. -/
inductive Derives (text : String) : Program → Nat → Prop where
  | mk {xs : List ((Func ⊕ Struct) × Nat)} {rest : List Char} :
    Many Item text.toList xs rest →
    trim rest = [] →
    Derives text (program (xs.map Prod.fst)) (xs.map Prod.snd).sum

/-- Of all derivations of a text, those of the highest priority have this value. -/
def Resolves (text : String) (p : Program) : Prop :=
  ∃ m, Derives text p m ∧ ∀ q k, Derives text q k → k < m ∨ k = m ∧ q = p

/-- A parser of the grammar that resolves ambiguity by priority. -/
def RunsGrammar (parser : String → Outcome Program) : Prop :=
  ∀ text p, Resolves text p → parser text = .ok p

variable {c : Cursor} {cs cs₁ cs₂ mid rest : List Char} {ch mark : Char} {d n op w : String}
  {t : Ty} {v : Datum} {fuel : Nat} {i : Instr} {ts : List Operand}

/-! ### What a production takes -/

lemma Ident.length_lt (h : Ident cs n rest) : rest.length < cs.length := by
  obtain ⟨ch, ds, hn, -⟩ := isName_cons h.named
  have := length_trim_le cs
  rw [h.trim_eq, hn, length_append, length_cons] at this
  omega

lemma Marked.length_lt (h : Marked mark cs n rest) : rest.length < cs.length := by
  have := length_trim_le cs
  rw [h.trim_eq, length_cons, length_append] at this
  omega

lemma Word.length_le (h : Word w cs rest) : rest.length ≤ cs.length := by
  have := length_trim_le cs
  rw [h, length_append] at this
  omega

lemma Typed.length_lt (h : Typed cs t rest) : rest.length < cs.length := by
  induction h with
  | app hn hlt _ hgt ih =>
    have := hn.length_lt
    have := hlt.length_le
    have := hgt.length_le
    omega
  | name hn => exact hn.length_lt

lemma Annotation.length_le {t : Option Ty} (h : Annotation cs t rest) :
    rest.length ≤ cs.length := by
  cases h with
  | bare => exact Nat.le_refl _
  | typed hw ht => exact Nat.le_trans (Nat.le_of_lt ht.length_lt) hw.length_le

lemma Many.length_le {α : Type} {P : List Char → α → List Char → Prop} {xs : List α}
    (step : ∀ {cs x rest}, P cs x rest → rest.length < cs.length) (h : Many P cs xs rest) :
    rest.length ≤ cs.length := by
  induction h with
  | nil => exact Nat.le_refl _
  | cons hx _ ih => exact Nat.le_trans ih (Nat.le_of_lt (step hx))

lemma Argument.length_lt {t : Operand} (h : Argument cs t rest) : rest.length < cs.length := by
  cases h with
  | func h => exact h.length_lt
  | label h => exact h.length_lt
  | arg h => exact h.length_lt

lemma Operation.length_lt (h : Operation cs i rest) : rest.length < cs.length := by
  cases h with
  | mk hn hts => exact Nat.lt_of_le_of_lt (hts.length_le Argument.length_lt) hn.length_lt

lemma Target.length_lt {t : Option Ty} (h : Target cs d t rest) : rest.length < cs.length := by
  cases h with
  | mk hd ht he =>
    exact Nat.lt_of_le_of_lt (Nat.le_trans he.length_le ht.length_le) hd.length_lt

/-! ### Literals -/

/-- A character that may stand in a number or a word. -/
def isLiteralPart (ch : Char) : Bool := isNamePart ch || ch = '+' || ch = '-'

/-- Only characters of numbers and words stand between two places. -/
def Takes (cs rest : List Char) : Prop :=
  ∃ lit, cs = lit ++ rest ∧ ∀ ch ∈ lit, isLiteralPart ch = true

lemma Takes.refl (cs : List Char) : Takes cs cs := ⟨[], rfl, fun _ h => absurd h not_mem_nil⟩

lemma Takes.trans (h : Takes cs mid) (h' : Takes mid rest) : Takes cs rest := by
  obtain ⟨lit, rfl, hl⟩ := h
  obtain ⟨more, rfl, hm⟩ := h'
  refine ⟨lit ++ more, (append_assoc ..).symm, fun ch hch => ?_⟩
  exact (mem_append.mp hch).elim (hl ch) (hm ch)

lemma Takes.cons (h : isLiteralPart ch = true) (cs : List Char) : Takes (ch :: cs) cs :=
  ⟨[ch], rfl, fun _ hd => mem_singleton.mp hd ▸ h⟩

lemma takes_digits (cs : List Char) : Takes cs (Json.digits cs).2 :=
  ⟨_, takeWhile_append_dropWhile.symm, fun ch h => by
    simp [isLiteralPart, isNamePart, mem_takeWhile_imp h]⟩

lemma takes_sign (cs : List Char) : Takes cs (sign cs).2 := by
  unfold sign
  split
  · exact .cons rfl _
  · exact .cons rfl _
  · exact .refl _

lemma takes_exponentPart (cs : List Char) :
    Takes cs (((Json.exponentPart cs).map Prod.snd).getD cs) := by
  cases cs with
  | nil => exact .refl _
  | cons ch cs =>
    have split : Json.exponentPart (ch :: cs) = if ch = 'e' ∨ ch = 'E' then
        if (Json.digits (sign cs).2).1.isEmpty then none
        else some (if (sign cs).1 then -(Decimal.digitsValue (Json.digits (sign cs).2).1 : Int)
          else Decimal.digitsValue (Json.digits (sign cs).2).1, (Json.digits (sign cs).2).2)
      else none := rfl
    rw [split]
    split
    · next hch =>
      split
      · exact .refl _
      · refine (Takes.cons ?_ cs).trans ((takes_sign cs).trans (takes_digits _))
        obtain rfl | rfl := hch <;> decide
    · exact .refl _

lemma takes_wholeNumber (h : wholeNumber cs = some (v, rest)) : Takes cs rest := by
  simp only [wholeNumber] at h
  split at h
  · cases h
  · cases h
    exact (takes_sign cs).trans (takes_digits _)

/-- The point of a number and the digits behind it, if there is one. -/
def pointPart : List Char → Bool × List Char × List Char
  | '.' :: cs => let (ds, cs) := Json.digits cs; (true, ds, cs)
  | cs => (false, [], cs)

lemma realNumber_eq_pointPart (cs : List Char) :
    realNumber cs =
      let whole := Json.digits (sign cs).2
      let frac := pointPart whole.2
      if whole.1.isEmpty && frac.2.1.isEmpty then none
      else if !frac.1 && (Json.exponentPart frac.2.2).isNone then none
      else some (.float (Decimal.toFloat (sign cs).1 (Decimal.digitsValue (whole.1 ++ frac.2.1))
          (((Json.exponentPart frac.2.2).map Prod.fst).getD 0 - (frac.2.1.length : Int))),
        ((Json.exponentPart frac.2.2).map Prod.snd).getD frac.2.2) := rfl

lemma takes_pointPart (cs : List Char) : Takes cs (pointPart cs).2.2 := by
  unfold pointPart
  split
  · exact (Takes.cons rfl _).trans (takes_digits _)
  · exact .refl _

lemma takes_realNumber (h : realNumber cs = some (v, rest)) : Takes cs rest := by
  rw [realNumber_eq_pointPart] at h
  simp only at h
  split at h
  · cases h
  · split at h
    · cases h
    · cases h
      exact (takes_sign cs).trans ((takes_digits _).trans
        ((takes_pointPart _).trans (takes_exponentPart _)))

lemma exists_of_charConstant (h : charConstant cs = some (v, rest)) :
    ∃ lit, cs = '\'' :: (lit ++ rest) := by
  unfold charConstant at h
  split at h
  · split at h
    · cases h
    · cases h
      exact ⟨[_, '\''], rfl⟩
  · obtain ⟨ch, -, he⟩ := Option.map_eq_some_iff.mp h
    cases he
    exact ⟨['\\', _, '\''], rfl⟩
  · cases h

/-- A literal is a constant character, or made of the characters of numbers and words. -/
lemma Literal.takes (h : Literal cs v rest) :
    Takes (trim cs) rest ∨ ∃ lit, trim cs = '\'' :: (lit ++ rest) := by
  cases h with
  | int h => exact .inl (takes_wholeNumber h)
  | @bool b _ h =>
    cases b with
    | true => exact .inl ⟨_, h, all_eq_true.mp rfl⟩
    | false => exact .inl ⟨_, h, all_eq_true.mp rfl⟩
  | float h => exact .inl (takes_realNumber h)
  | null h => exact .inl ⟨_, h, all_eq_true.mp rfl⟩
  | char h => exact .inr (exists_of_charConstant h)

lemma Literal.exists_append (h : Literal cs v rest) : ∃ lit, trim cs = lit ++ rest := by
  obtain ⟨lit, hl, -⟩ | ⟨lit, hl⟩ := h.takes
  · exact ⟨lit, hl⟩
  · exact ⟨'\'' :: lit, hl⟩

lemma Literal.length_le (h : Literal cs v rest) : rest.length ≤ cs.length := by
  obtain ⟨lit, hl⟩ := h.exists_append
  have := length_trim_le cs
  rw [hl, length_append] at this
  omega

lemma Word.lacks {ws : List Char} (h : Word w cs rest) (hw : w.toList = ch :: ws)
    {d : Char} (hd : ch ≠ d) : Lacks d (trim cs) := by
  rw [h, hw]
  exact lacks_cons.mpr hd

lemma Lacks.of_trim {d : Char} (hs : isSolid d = true) (h : Lacks d (trim cs)) : Lacks d cs := by
  cases cs with
  | nil => exact h
  | cons ch cs =>
    rw [lacks_cons]
    rintro rfl
    rw [trim_solid hs, lacks_cons] at h
    exact h rfl

/-- A whole number in front of a semicolon is not the beginning of a longer number. -/
lemma realNumber_of_wholeNumber (h : wholeNumber cs = some (v, mid)) (hw : Word ";" mid rest) :
    realNumber cs = none := by
  have lacks : ∀ d, isSolid d = true → ';' ≠ d → Lacks d mid := fun d hs hd =>
    Lacks.of_trim hs (hw.lacks rfl hd)
  have hmid : (Json.digits (sign cs).2).2 = mid := by
    simp only [wholeNumber] at h
    split at h
    · cases h
    · cases h
      rfl
  have point : pointPart mid = (false, [], mid) := by
    unfold pointPart
    split
    · exact absurd rfl (lacks_cons.mp (lacks '.' rfl (by decide)))
    · rfl
  have exponent : Json.exponentPart mid = none := by
    cases mid with
    | nil => rfl
    | cons ch cs =>
      have hch := not_or.mpr ⟨lacks_cons.mp (lacks 'e' rfl (by decide)),
        lacks_cons.mp (lacks 'E' rfl (by decide))⟩
      exact if_neg hch
  simp [realNumber_eq_pointPart, hmid, point, exponent]

/-- The first literal of a text that is not a number. -/
def wordLiteral (cs : List Char) : Option (Datum × List Char) :=
  (valueWord "true" (.bool true) cs).or <| (valueWord "false" (.bool false) cs).or <|
    (valueWord "nullptr" (.int 0) cs).or (charConstant cs)

lemma Literal.number_or_word (h : Literal cs v rest) :
    (wholeNumber (trim cs) = some (v, rest) ∨ realNumber (trim cs) = some (v, rest)) ∨
      wordLiteral (trim cs) = some (v, rest) ∧ wholeNumber (trim cs) = none ∧
        realNumber (trim cs) = none := by
  cases h with
  | int h => exact .inl (.inl h)
  | @bool b _ h =>
    refine .inr ?_
    rw [h]
    cases b <;> exact ⟨rfl, rfl, rfl⟩
  | float h => exact .inl (.inr h)
  | null h =>
    refine .inr ?_
    rw [h]
    exact ⟨rfl, rfl, rfl⟩
  | char h =>
    obtain ⟨lit, hl⟩ := exists_of_charConstant h
    rw [hl] at h ⊢
    exact .inr ⟨h, rfl, rfl⟩

/-- Of the literals that a text starts with, one at most stands in front of a semicolon. -/
lemma Literal.unique {v' : Datum} {mid' rest' : List Char} (h : Literal cs v mid)
    (hw : Word ";" mid rest) (h' : Literal cs v' mid') (hw' : Word ";" mid' rest') :
    v' = v ∧ mid' = mid := by
  obtain (h | h) | ⟨h, noWhole, noReal⟩ := h.number_or_word <;>
    obtain (h' | h') | ⟨h', noWhole', noReal'⟩ := h'.number_or_word
  all_goals first
    | simpa using h'.symm.trans h
    | exact absurd (realNumber_of_wholeNumber h hw) (by simp [h'])
    | exact absurd (realNumber_of_wholeNumber h' hw') (by simp [h])
    | simp_all

lemma valueWord_eq_some {v₀ : Datum} :
    valueWord w v₀ (trim cs) = some (v, rest) ↔ v = v₀ ∧ Word w cs rest := by
  rw [valueWord, Word]
  constructor
  · intro h
    split at h
    · next hw =>
      cases h
      obtain ⟨tail, ht⟩ := isPrefixOf_iff_prefix.mp hw
      rw [← ht, ← String.length_toList, drop_left]
      exact ⟨rfl, rfl⟩
    · cases h
  · rintro ⟨rfl, h⟩
    rw [h, if_pos ( isPrefixOf_iff_prefix.mpr (prefix_append ..)), ← String.length_toList, drop_left]

lemma mem_literals : (v, rest) ∈ literals (trim cs) ↔ Literal cs v rest := by
  simp only [literals, mem_filterMap, mem_cons, not_mem_nil, or_false, id_eq, exists_eq_right,
    eq_comm (a := some (v, rest)), valueWord_eq_some]
  constructor
  · rintro (h | ⟨rfl, h⟩ | ⟨rfl, h⟩ | h | ⟨rfl, h⟩ | h)
    · exact .int h
    · exact .bool (b := true) h
    · exact .bool (b := false) h
    · exact .float h
    · exact .null h
    · exact .char h
  · intro h
    cases h with
    | int h => exact .inl h
    | @bool b _ h =>
      cases b with
      | true => exact .inr (.inl ⟨rfl, h⟩)
      | false => exact .inr (.inr (.inl ⟨rfl, h⟩))
    | float h => exact .inr (.inr (.inr (.inl h)))
    | null h => exact .inr (.inr (.inr (.inr (.inl ⟨rfl, h⟩))))
    | char h => exact .inr (.inr (.inr (.inr (.inr h))))

/-! ### The reader of literals -/

lemma word_eq_some {c' : Cursor} (h : word w c = some c') : c.rest = w.toList ++ c'.rest := by
  rw [word] at h
  split at h
  · next hw =>
    cases h
    obtain ⟨tail, ht⟩ := isPrefixOf_iff_prefix.mp hw
    rw [rest_advance, ← ht, ← String.length_toList, drop_left]
  · cases h

lemma nextWord_eq_some {c' : Cursor} (h : nextWord w c = some c') : Word w c.rest c'.rest := by
  rw [Word, ← rest_skip]
  exact word_eq_some h

/-- A literal that has been read, and the semicolon that ends the instruction. -/
def endLiteral (c : Cursor) (l : Datum × List Char) : Option (Datum × Cursor) := do
  let c ← nextWord ";" (c.advance (c.rest.length - l.2.length))
  some (l.1, c)

lemma literalStatement_eq (c : Cursor) :
    literalStatement c = (literals c.skip.rest).findSome? (endLiteral c.skip) := rfl

lemma Literal.rest_advance (h : Literal c.rest v rest) :
    (c.skip.advance (c.skip.rest.length - rest.length)).rest = rest := by
  obtain ⟨lit, hl⟩ := h.exists_append
  rw [Cursor.rest_advance, rest_skip, hl, length_append, Nat.add_sub_cancel, drop_left]

lemma literalStatement_eq_some {c' : Cursor} (h : literalStatement c = some (v, c')) :
    ∃ mid, Literal c.rest v mid ∧ Word ";" mid c'.rest := by
  rw [literalStatement_eq, rest_skip] at h
  obtain ⟨⟨w, mid⟩, hmem, hend⟩ := exists_of_findSome?_eq_some h
  have lit := mem_literals.mp hmem
  obtain ⟨c₁, hw, he⟩ := Option.bind_eq_some_iff.mp hend
  cases he
  have := nextWord_eq_some hw
  rw [lit.rest_advance] at this
  exact ⟨mid, lit, this⟩

lemma Literal.reads (h : Literal c.rest v mid) (hw : Word ";" mid rest) :
    ∃ c', literalStatement c = some (v, c') ∧ c'.rest = rest := by
  obtain ⟨c₁, hend, -⟩ := @nextWord_eq (c.skip.advance (c.skip.rest.length - mid.length)) rest ";"
    (by rwa [h.rest_advance])
  have some : (literalStatement c).isSome = true := by
    rw [literalStatement_eq, rest_skip, findSome?_isSome_iff]
    exact ⟨(v, mid), mem_literals.mpr h, by rw [endLiteral, hend]; rfl⟩
  obtain ⟨⟨v', c'⟩, hlit⟩ := Option.isSome_iff_exists.mp some
  obtain ⟨mid', h', hw'⟩ := literalStatement_eq_some hlit
  obtain ⟨rfl, rfl⟩ := h.unique hw h' hw'
  exact ⟨c', hlit, List.append_cancel_left (hw'.symm.trans hw)⟩

/-! ### The reader of types and operations -/

lemma Ident.reads (h : Ident cs n rest) (hc : c.rest = trim cs) :
    ∃ c', name c = some (n, c') ∧ c'.rest = rest :=
  name_eq h.named h.stop (hc.trans h.trim_eq)

lemma Marked.reads (h : Marked mark cs n rest) (hc : c.rest = trim cs) :
    ∃ c', markedName mark c = some (n, c') ∧ c'.rest = rest :=
  markedName_eq h.named h.stop (hc.trans h.trim_eq)

lemma Ident.lacks (h : Ident cs n rest) (hch : isNameStart ch = false) : Lacks ch (trim cs) := by
  rw [h.trim_eq]
  exact lacks_name hch h.named rest

lemma Ident.trim_trim (h : Ident cs n rest) : trim (trim cs) = trim cs := by
  rw [h.trim_eq, trim_name h.named]

lemma Marked.lacks (h : Marked mark cs n rest) (hch : mark ≠ ch) : Lacks ch (trim cs) := by
  rw [h.trim_eq]
  exact lacks_cons.mpr hch

/-- A type is read if it is not followed by the mark of a nested one. -/
lemma Typed.reads (h : Typed cs t rest) (ends : Lacks '<' (trim rest)) (hc : c.rest = cs)
    (hf : cs.length < fuel) : ∃ c', typeWith fuel c = some (t, c') ∧ c'.rest = rest := by
  induction h generalizing fuel c with
  | @app cs cs₁ cs₂ cs₃ rest n t hn hlt ht hgt ih =>
    subst hc
    have := hn.length_lt
    have := hlt.length_le
    obtain _ | fuel := fuel
    · omega
    obtain ⟨c₁, hname, rfl⟩ := hn.reads (rest_skip c)
    obtain ⟨c₂, hopen, h₂⟩ := nextWord_eq hlt
    obtain ⟨c₃, htype, rfl⟩ := @ih _ fuel (hgt.lacks rfl (by decide)) h₂ (by omega)
    obtain ⟨c₄, hclose, h₄⟩ := nextWord_eq hgt
    exact ⟨c₄, by simp [typeWith, hname, hopen, htype, hclose], h₄⟩
  | name hn =>
    subst hc
    obtain _ | fuel := fuel
    · omega
    obtain ⟨c₁, hname, rfl⟩ := hn.reads (rest_skip c)
    have hopen : nextWord "<" c₁ = none := nextWord_eq_none rfl ends
    exact ⟨c₁, by simp [typeWith, hname, hopen], rfl⟩

lemma Annotation.reads {t : Option Ty} (h : Annotation c.rest t rest)
    (nested : Lacks '<' (trim rest)) (colon : Lacks ':' (trim rest)) :
    ∃ c', typeAnnotation c = some (t, c') ∧ c'.rest = rest := by
  cases h with
  | bare =>
    have none : nextWord ":" c = none := nextWord_eq_none rfl colon
    exact ⟨c, by simp [ typeAnnotation, none], rfl⟩
  | typed hw ht =>
    obtain ⟨c₁, hcolon, rfl⟩ := nextWord_eq hw
    obtain ⟨c₂, htype, h₂⟩ := ht.reads nested rfl (Nat.lt_succ_self _)
    exact ⟨c₂, by simp [ typeAnnotation, hcolon, type, htype], h₂⟩

lemma Argument.lacks {t : Operand} (h : Argument cs t rest)
    (hch : isNameStart ch = false ∧ ch ≠ '@' ∧ ch ≠ '.') : Lacks ch (trim cs) := by
  cases h with
  | func h => exact h.lacks hch.2.1.symm
  | label h => exact h.lacks hch.2.2.symm
  | arg h => exact h.lacks hch.1

/-- Neither an operand nor the semicolon starts with another character. -/
lemma Many.lacks (h : Many Argument cs ts mid) (hw : Word ";" mid rest)
    (hch : isNameStart ch = false ∧ ch ≠ '@' ∧ ch ≠ '.' ∧ ch ≠ ';') : Lacks ch (trim cs) := by
  cases h with
  | nil => exact hw.lacks rfl hch.2.2.2.symm
  | cons ht _ => exact ht.lacks ⟨hch.1, hch.2.1, hch.2.2.1⟩

lemma Argument.reads {t : Operand} (h : Argument c.rest t rest) (fuel : Nat) (os : Operands) :
    ∃ c', operands (fuel + 1) os c = operands fuel (t.addTo os) c' ∧ c'.rest = rest := by
  have hw : word ";" c.skip = none := word_eq_none rfl (rest_skip c ▸ h.lacks (by decide))
  cases h with
  | func h =>
    obtain ⟨c', hm, hr⟩ := h.reads (rest_skip c)
    exact ⟨c', by simp [operands, hw, hm, Operand.addTo], hr⟩
  | label h =>
    obtain ⟨c', hm, hr⟩ := h.reads (rest_skip c)
    have hat : markedName '@' c.skip = none :=
      markedName_eq_none (rest_skip c ▸ h.lacks (by decide))
    exact ⟨c', by simp [operands, hw, hat, hm, Operand.addTo], hr⟩
  | arg h =>
    obtain ⟨c', hm, hr⟩ := h.reads (rest_skip c)
    have hat : markedName '@' c.skip = none := markedName_eq_none (rest_skip c ▸ h.lacks rfl)
    have hdot : markedName '.' c.skip = none := markedName_eq_none (rest_skip c ▸ h.lacks rfl)
    exact ⟨c', by simp [operands, hw, hat, hdot, hm, Operand.addTo], hr⟩

lemma Many.reads_operands (h : Many Argument cs ts mid) (hw : Word ";" mid rest)
    (hc : c.rest = cs) (os : Operands) (hf : cs.length < fuel) :
    ∃ c', operands fuel os c = some (ts.foldl Operand.addTo os, c') ∧ c'.rest = rest := by
  induction h generalizing fuel os c with
  | nil =>
    subst hc
    obtain _ | fuel := fuel
    · omega
    obtain ⟨c', hword, hr⟩ := @word_eq c.skip rest ";" (by rw [rest_skip, hw])
    exact ⟨c', by simp [operands, hword], hr⟩
  | cons ht _ ih =>
    subst hc
    have := ht.length_lt
    obtain _ | fuel := fuel
    · omega
    obtain ⟨c₁, hstep, h₁⟩ := ht.reads fuel os
    obtain ⟨c₂, hrest, h₂⟩ := ih hw h₁ (Operand.addTo os _) (show _ < fuel by omega)
    exact ⟨c₂, by rw [hstep, hrest, foldl_cons], h₂⟩

lemma Operation.reads (h : Operation cs i mid) (hw : Word ";" mid rest) (hc : trim c.rest = trim cs) :
    ∃ c', operation c = some (i, c') ∧ c'.rest = rest := by
  cases h with
  | mk hn hts =>
    obtain ⟨c₁, hname, h₁⟩ := hn.reads ((rest_skip c).trans hc)
    obtain ⟨c₂, hos, h₂⟩ := hts.reads_operands hw h₁ {} (Nat.lt_succ_self _)
    exact ⟨c₂, by simp [operation, hname, h₁, hos, operationOf], h₂⟩

/-! ### Statements -/

/-- A literal in a place where a name stands ends with the name. -/
lemma Takes.eq_of_run {run : List Char} (h : Takes (run ++ rest) mid) (hw : Word ";" mid cs)
    (parts : ∀ ch ∈ run, isNamePart ch = true) (stop : StopsBefore isNamePart rest)
    (plus : Lacks '+' rest) (minus : Lacks '-' rest) : mid = rest := by
  obtain ⟨lit, hl, hparts⟩ := h
  induction run generalizing lit with
  | nil =>
    cases lit with
    | nil => exact hl.symm
    | cons ch lit =>
      rw [nil_append, cons_append] at hl
      rw [hl, stopsBefore_cons] at stop
      rw [hl, lacks_cons] at plus minus
      have := hparts ch mem_cons_self
      simp [isLiteralPart, stop, plus, minus] at this
  | cons b run ih =>
    have hb := parts b mem_cons_self
    cases lit with
    | nil =>
      have hmid : mid = b :: (run ++ rest) := hl.symm
      have solid : isSolid b = true := isSolid_of (p := isNamePart) hb (by decide)
      rw [Word, hmid, trim_solid solid] at hw
      cases hw
      cases hb
    | cons ch lit =>
      rw [cons_append, cons_append, cons.injEq] at hl
      exact ih (fun d hd => parts d (mem_cons_of_mem b hd)) lit hl.2
        fun d hd => hparts d (mem_cons_of_mem ch hd)

/-- The last operand of an operation, read as a literal, ends the same statement. -/
lemma Literal.same_end {run behind rest' : List Char} (h : Literal cs v mid)
    (hw : Word ";" mid rest) (hrun : trim cs = ch :: (run ++ cs₁)) (hch : isNamePart ch = true)
    (parts : ∀ d ∈ run, isNamePart d = true) (stop : StopsBefore isNamePart cs₁)
    (args : Many Argument cs₁ ts behind) (hw' : Word ";" behind rest') : rest' = rest := by
  obtain takes | ⟨lit, hl⟩ := h.takes
  · rw [hrun, ← cons_append] at takes
    have lacks : ∀ d, isSolid d = true → isNameStart d = false ∧ d ≠ '@' ∧ d ≠ '.' ∧ d ≠ ';' →
        Lacks d cs₁ := fun d hs hd => Lacks.of_trim hs (args.lacks hw' hd)
    have heq := takes.eq_of_run hw (forall_mem_cons.mpr ⟨hch, parts⟩) stop
      (lacks '+' rfl (by decide)) (lacks '-' rfl (by decide))
    subst heq
    cases args with
    | nil => exact append_cancel_left (hw'.symm.trans hw)
    | cons ht _ =>
      have : Lacks ';' (trim _) := ht.lacks (by decide)
      rw [hw] at this
      exact absurd rfl (lacks_cons.mp this)
  · rw [hrun, cons.injEq] at hl
    rw [hl.1] at hch
    cases hch

lemma Literal.head_ne {tail : List Char} (h : Literal cs v rest) (hcs : trim cs = ch :: tail) :
    ch ≠ ';' ∧ ch ≠ '@' := by
  have starts := h.number_or_word
  rw [hcs] at starts
  constructor <;>
    · rintro rfl
      obtain (h | h) | ⟨h, -⟩ := starts <;> cases h

lemma isName_parts (h : isName n = true) :
    ∃ ch ds, n.toList = ch :: ds ∧ isNamePart ch = true ∧ ∀ d ∈ ds, isNamePart d = true := by
  obtain ⟨ch, ds, hn, hch, hds⟩ := isName_cons h
  exact ⟨ch, ds, hn, by simp [isNamePart, hch], hds⟩

/-- A constant that is also an operation ends at the same place, and its operation's name starts
like a constant. -/
lemma Constant.same_end {rest' : List Char} (h : Constant cs v rest) (hn : Ident cs op cs₁)
    (args : Many Argument cs₁ ts mid) (hw : Word ";" mid rest') :
    rest' = rest ∧ "const".toList <+: op.toList := by
  cases h with
  | @mk cs₂ cs₃ _ _ hconst lit hsemi =>
    obtain ⟨ch, ds, hop, hch, hds⟩ := isName_parts hn.named
    have parts : ∀ d ∈ op.toList, isNamePart d = true := by
      rw [hop]
      exact forall_mem_cons.mpr ⟨hch, hds⟩
    have hcs : "const".toList ++ cs₂ = op.toList ++ cs₁ := hconst.symm.trans hn.trim_eq
    have word : ∀ d ∈ "const".toList, isNamePart d = true := all_eq_true.mp rfl
    have hrun : "const".toList ++ cs₂.takeWhile isNamePart = op.toList := by
      rw [← takeWhile_append_of_pos word, hcs, takeWhile_run parts hn.stop]
    have htail : cs₂.dropWhile isNamePart = cs₁ := by
      rw [← dropWhile_append_of_pos word, hcs, dropWhile_run parts hn.stop]
    refine ⟨?_, ⟨_, hrun⟩⟩
    have hsplit : cs₂ = cs₂.takeWhile isNamePart ++ cs₁ := by
      rw [← htail, takeWhile_append_dropWhile]
    have hrest : ∀ d ∈ cs₂.takeWhile isNamePart, isNamePart d = true := fun _ => mem_takeWhile_imp
    cases hsuffix : cs₂.takeWhile isNamePart with
    | cons b run =>
      rw [hsuffix] at hsplit hrest
      have hb := hrest b mem_cons_self
      have solid : isSolid b = true := isSolid_of (p := isNamePart) hb (by decide)
      exact lit.same_end hsemi (by rw [hsplit, cons_append, trim_solid solid]) hb
        (fun d hd => hrest d (mem_cons_of_mem b hd)) hn.stop args hw
    | nil =>
      rw [hsuffix, nil_append] at hsplit
      subst hsplit
      cases args with
      | nil => exact absurd rfl (lit.head_ne hw).1
      | cons ht args =>
        cases ht with
        | func h => exact absurd rfl (lit.head_ne h.trim_eq).2
        | @label n _ h =>
          obtain ⟨b, bs, hb, hbp, hbs⟩ := isName_parts h.named
          exact lit.same_end hsemi h.trim_eq rfl (hb ▸ forall_mem_cons.mpr ⟨hbp, hbs⟩) h.stop args hw
        | @arg n _ h =>
          obtain ⟨b, bs, hb, hbp, hbs⟩ := isName_parts h.named
          exact lit.same_end hsemi (by rw [h.trim_eq, hb, cons_append]) hbp hbs h.stop args hw

/-! The right side of an assignment: the reader tries a constant first. -/

def rightSide (dest : String) (t : Option Ty) (c : Cursor) : Option (Instr × Cursor) :=
  match constant dest t c with
  | some r => some r
  | none => do
    let (i, c) ← operation c
    some ({ i with dest := some dest, type := t }, c)

lemma assignment_eq (dest : String) (c : Cursor) :
    assignment dest c = Option.bind ( typeAnnotation c) fun a =>
      (nextWord "=" a.2).bind fun c => rightSide dest a.1 c := rfl

lemma constant_eq_some {t : Option Ty} {c' : Cursor} (h : constant d t c = some (i, c')) :
    ∃ v, Constant c.rest v c'.rest ∧
      i = { op := some "const", dest := some d, type := t, value := some v } := by
  obtain ⟨c₁, hw, h⟩ := Option.bind_eq_some_iff.mp h
  obtain ⟨⟨v, c₂⟩, hl, h⟩ := Option.bind_eq_some_iff.mp h
  cases h
  obtain ⟨mid, lit, hsemi⟩ := literalStatement_eq_some hl
  exact ⟨v, .mk (nextWord_eq_some hw) lit hsemi, rfl⟩

lemma Constant.reads {t : Option Ty} (h : Constant c.rest v rest) :
    ∃ c', c'.rest = rest ∧ rightSide d t c =
      some ({ op := some "const", dest := some d, type := t, value := some v }, c') := by
  cases h with
  | mk hw lit hsemi =>
    obtain ⟨c₁, hconst, rfl⟩ := nextWord_eq hw
    obtain ⟨c₂, hlit, h₂⟩ := lit.reads hsemi
    exact ⟨c₂, h₂, by simp [rightSide, constant, hconst, hlit]⟩

/-- An assignment that a constant of higher priority takes the place of. -/
def Overruled (i : Instr) : Prop :=
  i.value = none ∧ i.dest.isSome = true ∧ ∃ op, i.op = some op ∧ "const".toList <+: op.toList

/-- What the reader finds in the place of a derivation: the same, or something of higher priority. -/
def Outranks {α : Type} (O : α → Prop) (y x : α × Nat) : Prop := y = x ∨ x.2 < y.2 ∧ O x.1

/-- The left side of an assignment is read, whatever follows it. -/
lemma Target.reads {t : Option Ty} (h : Target cs d t rest) (hc : c.rest = trim cs) :
    ∃ c', c'.rest = rest ∧ ∀ i c'', rightSide d t c' = some (i, c'') → i.extra = [] →
      instr false c = some (i, c'') := by
  cases h with
  | mk hd ht he =>
    have hdot : markedName '.' c = none := markedName_eq_none (hc ▸ hd.lacks rfl)
    obtain ⟨c₁, hname, rfl⟩ := hd.reads hc
    obtain ⟨c₂, hann, rfl⟩ := ht.reads (he.lacks rfl (by decide)) (he.lacks rfl (by decide))
    obtain ⟨c₃, heq, h₃⟩ := nextWord_eq he
    refine ⟨c₃, h₃, fun i c' hi hextra => ?_⟩
    have same : { i with extra := [] } = i := by rw [← hextra]
    simp [instr, hdot, hname, assignment_eq, hann, heq, hi, position, same]

/-- Behind the name of an operation without a result stands no assignment. -/
lemma Operation.reads_instr (h : Operation cs i mid) (hw : Word ";" mid rest)
    (hc : c.rest = trim cs) : ∃ c', instr false c = some (i, c') ∧ c'.rest = rest := by
  have extra : i.extra = [] := by
    cases h
    rfl
  have same : { i with extra := [] } = i := by rw [← extra]
  have start : trim c.rest = trim cs := by
    cases h with
    | mk hn _ => rw [hc, hn.trim_trim]
  obtain ⟨c', hread, hr⟩ := h.reads hw start
  cases h with
  | mk hn args =>
    have hdot : markedName '.' c = none := markedName_eq_none (hc ▸ hn.lacks rfl)
    obtain ⟨c₁, hname, rfl⟩ := hn.reads hc
    have hcolon : nextWord ":" c₁ = none := nextWord_eq_none rfl (args.lacks hw (by decide))
    have heq : nextWord "=" c₁ = none := nextWord_eq_none rfl (args.lacks hw (by decide))
    refine ⟨c', ?_, hr⟩
    simp [instr, hdot, hname, assignment_eq, typeAnnotation, hcolon, heq, hread, position, same]

/-- The reader follows every derivation of a statement, unless it finds one of higher priority that
ends at the same place. -/
lemma Statement.reads {x : Instr × Nat} (h : Statement cs x rest) (hc : c.rest = trim cs) :
    ∃ y c', instr false c = some (y.1, c') ∧ c'.rest = rest ∧ Statement cs y rest ∧
      Outranks Overruled y x := by
  have same := h
  cases h with
  | const hd hv =>
    obtain ⟨c₁, rfl, reads⟩ := hd.reads hc
    obtain ⟨c₂, h₂, hright⟩ := hv.reads
    exact ⟨_, c₂, reads _ _ hright rfl, h₂, same, .inl rfl⟩
  | @value mid behind _ d t i hd hop hw =>
    obtain ⟨c₁, rfl, reads⟩ := hd.reads hc
    obtain ⟨c₂, hread, h₂⟩ := hop.reads hw rfl
    cases hop with
    | mk hn args =>
      cases hconst : constant d t c₁ with
      | some r =>
        obtain ⟨j, c'⟩ := r
        obtain ⟨v, hv, rfl⟩ := constant_eq_some hconst
        obtain ⟨rfl, hpre⟩ := hv.same_end hn args hw
        exact ⟨_, c', reads _ c' (by rw [rightSide, hconst]) rfl, rfl, .const hd hv,
          .inr ⟨Nat.lt_succ_self 3, rfl, rfl, _, rfl, hpre⟩⟩
      | none =>
        exact ⟨_, c₂, reads _ _ (by simp [rightSide, hconst, hread]) rfl, h₂, same, .inl rfl⟩
  | effect hop hw =>
    obtain ⟨c', hread, hr⟩ := hop.reads_instr hw hc
    exact ⟨_, c', hread, hr, same, .inl rfl⟩
  | label hl hw =>
    obtain ⟨c₁, hname, rfl⟩ := hl.reads hc
    obtain ⟨c₂, hcolon, h₂⟩ := nextWord_eq hw
    exact ⟨_, c₂, by simp [instr, hname, hcolon, position], h₂, same, .inl rfl⟩

lemma Statement.length_lt {x : Instr × Nat} (h : Statement cs x rest) :
    rest.length < cs.length := by
  cases h with
  | const hd hv =>
    cases hv with
    | mk hw lit hsemi =>
      have := hd.length_lt
      have := hw.length_le
      have := lit.length_le
      have := hsemi.length_le
      omega
  | value hd hop hw =>
    have := hd.length_lt
    have := hop.length_lt
    have := hw.length_le
    omega
  | effect hop hw => exact Nat.lt_of_le_of_lt hw.length_le hop.length_lt
  | label hl hw => exact Nat.lt_of_le_of_lt hw.length_le hl.length_lt

lemma Statement.lacks_brace {x : Instr × Nat} (h : Statement cs x rest) :
    Lacks '\x7d' (trim cs) := by
  cases h with
  | const hd _ =>
    cases hd with
    | mk hd _ _ => exact hd.lacks rfl
  | value hd _ _ =>
    cases hd with
    | mk hd _ _ => exact hd.lacks rfl
  | effect hop _ =>
    cases hop with
    | mk hn _ => exact hn.lacks rfl
  | label hl _ => exact hl.lacks (by decide)

/-! ### Bodies -/

section Bodies

variable {α β : Type} {P : List Char → β → List Char → Prop} {R : β → β → Prop} {value : β → α}
  {item : Cursor → Option (α × Cursor)} {xs ys : List β}

/-- A production whose derivations the reader follows, up to `R`, inside braces. -/
structure Follows (item : Cursor → Option (α × Cursor)) (value : β → α) (R : β → β → Prop)
    (P : List Char → β → List Char → Prop) : Prop where
  shrinks : ∀ {cs x rest}, P cs x rest → rest.length < cs.length
  inside : ∀ {cs x rest}, P cs x rest → Lacks '\x7d' (trim cs)
  reads : ∀ {cs x rest}, P cs x rest → ∀ c, c.rest = trim cs →
    ∃ y c', item c = some (value y, c') ∧ c'.rest = rest ∧ P cs y rest ∧ R y x

lemma Follows.untilBrace (step : Follows item value R P) (h : Many P cs xs mid)
    (hw : Word "\x7d" mid rest) (hc : c.rest = cs) (hf : cs.length < fuel) :
    ∃ ys c', untilBrace item fuel c = some (ys.map value, c') ∧ c'.rest = rest ∧
      Many P cs ys mid ∧ Forall₂ R ys xs := by
  induction h generalizing fuel c with
  | nil =>
    subst hc
    obtain _ | fuel := fuel
    · omega
    obtain ⟨c', hword, hr⟩ := @word_eq c.skip rest "\x7d" (by rw [rest_skip, hw])
    exact ⟨[], c', by simp [Parser.untilBrace, hword], hr, .nil, .nil⟩
  | cons hx _ ih =>
    subst hc
    have := step.shrinks hx
    obtain _ | fuel := fuel
    · omega
    have hbrace : word "\x7d" c.skip = none := word_eq_none rfl (rest_skip c ▸ step.inside hx)
    obtain ⟨y, c₁, hitem, h₁, hy, hyx⟩ := step.reads hx c.skip (rest_skip c)
    obtain ⟨ys, c₂, hmore, h₂, hys, hyxs⟩ := @ih _ fuel hw h₁ (by omega)
    exact ⟨y :: ys, c₂, by simp [Parser.untilBrace, hbrace, hitem, hmore], h₂, .cons hy hys,
      .cons hyx hyxs⟩

lemma follows_statement : Follows (instr false) Prod.fst (Outranks Overruled) Statement where
  shrinks h := h.length_lt
  inside h := h.lacks_brace
  reads h _ hc := h.reads hc

/-- The priorities of parts add up, so a program that replaces one has the higher sum. -/
lemma outranks_list {α : Type} {O : α → Prop} {ys xs : List (α × Nat)}
    (h : Forall₂ (Outranks O) ys xs) :
    ys = xs ∨ (xs.map Prod.snd).sum < (ys.map Prod.snd).sum ∧ ∃ x ∈ xs.map Prod.fst, O x := by
  induction h with
  | nil => exact .inl rfl
  | @cons y x ys xs hyx _ ih =>
    simp only [map_cons, sum_cons, mem_cons, exists_eq_or_imp]
    obtain rfl | ⟨hlt, hx⟩ := hyx
    · obtain rfl | ⟨hlt, hxs⟩ := ih
      · exact .inl rfl
      · exact .inr ⟨by omega, .inr hxs⟩
    · obtain rfl | ⟨hlts, hxs⟩ := ih
      · exact .inr ⟨by omega, .inl hx⟩
      · exact .inr ⟨by omega, .inl hx⟩

end Bodies

/-! ### Parameters -/

section Parameters

variable {p : Param} {ps : List Param}

lemma Parameter.length_lt (h : Parameter cs p rest) : rest.length < cs.length := by
  cases h with
  | mk hn hw ht =>
    have := hn.length_lt
    have := hw.length_le
    have := ht.length_lt
    omega

lemma Parameter.lacks (h : Parameter cs p rest) (hch : isNameStart ch = false) :
    Lacks ch (trim cs) := by
  cases h with
  | mk hn _ _ => exact hn.lacks hch

lemma Parameter.reads (h : Parameter cs p rest) (nested : Lacks '<' (trim rest))
    (hc : trim c.rest = trim cs) : ∃ c', param c = some (p, c') ∧ c'.rest = rest := by
  cases h with
  | mk hn hw ht =>
    obtain ⟨c₁, hname, rfl⟩ := hn.reads ((rest_skip c).trans hc)
    obtain ⟨c₂, hcolon, rfl⟩ := nextWord_eq hw
    obtain ⟨c₃, htype, h₃⟩ := ht.reads nested rfl (Nat.lt_succ_self _)
    exact ⟨c₃, by simp [param, hname, hcolon, type, htype], h₃⟩

lemma Further.length_lt (h : Further cs p rest) : rest.length < cs.length := by
  cases h with
  | mk hw hp => exact Nat.lt_of_lt_of_le hp.length_lt hw.length_le

lemma Many.lacks_nested (h : Many Further cs ps mid) (hw : Word ")" mid rest) :
    Lacks '<' (trim cs) := by
  cases h with
  | nil => exact hw.lacks rfl (by decide)
  | cons hp _ =>
    cases hp with
    | mk hcomma _ => exact hcomma.lacks rfl (by decide)

lemma Many.reads_moreParams (h : Many Further cs ps mid) (hw : Word ")" mid rest)
    (hc : c.rest = cs) (hf : cs.length < fuel) :
    ∃ c', moreParams fuel c = some (ps, c') ∧ c'.rest = rest := by
  induction h generalizing fuel c with
  | nil =>
    subst hc
    obtain _ | fuel := fuel
    · omega
    obtain ⟨c', hclose, hr⟩ := nextWord_eq hw
    exact ⟨c', by simp [moreParams, hclose], hr⟩
  | cons hp hps ih =>
    subst hc
    have := hp.length_lt
    obtain _ | fuel := fuel
    · omega
    cases hp with
    | mk hcomma hp =>
      have hclose : nextWord ")" c = none := nextWord_eq_none rfl (hcomma.lacks rfl (by decide))
      obtain ⟨c₁, hnext, rfl⟩ := nextWord_eq hcomma
      obtain ⟨c₂, hparam, h₂⟩ := hp.reads (hps.lacks_nested hw) rfl
      obtain ⟨c₃, hmore, h₃⟩ := @ih _ fuel hw h₂ (by omega)
      exact ⟨c₃, by simp [moreParams, hclose, hnext, hparam, hmore], h₃⟩

lemma Parameters.length_le (h : Parameters cs ps rest) : rest.length ≤ cs.length := by
  cases h with
  | bare => exact Nat.le_refl _
  | empty hopen hclose => exact Nat.le_trans hclose.length_le hopen.length_le
  | listed hopen hp hps hclose =>
    have := hopen.length_le
    have := hp.length_lt
    have := hps.length_le Further.length_lt
    have := hclose.length_le
    omega

lemma Parameters.reads (h : Parameters c.rest ps rest) (paren : Lacks '(' (trim rest)) :
    ∃ c', params c = some (ps, c') ∧ c'.rest = rest := by
  cases h with
  | bare =>
    have none : nextWord "(" c = none := nextWord_eq_none rfl paren
    exact ⟨c, by simp [params, none], rfl⟩
  | empty hopen hclose =>
    obtain ⟨c₁, h₁, rfl⟩ := nextWord_eq hopen
    obtain ⟨c₂, h₂, hr⟩ := nextWord_eq hclose
    exact ⟨c₂, by simp [params, h₁, h₂], hr⟩
  | listed hopen hp hps hclose =>
    obtain ⟨c₁, h₁, rfl⟩ := nextWord_eq hopen
    have none : nextWord ")" c₁ = none := nextWord_eq_none rfl (hp.lacks rfl)
    obtain ⟨c₂, hparam, rfl⟩ := hp.reads (hps.lacks_nested hclose) rfl
    obtain ⟨c₃, hmore, hr⟩ := hps.reads_moreParams hclose rfl (Nat.lt_succ_self _)
    exact ⟨c₃, by simp [params, h₁, none, hparam, hmore], hr⟩

end Parameters

/-! ### Functions and declarations -/

lemma Annotation.lacks_paren {t : Option Ty} (h : Annotation cs t mid) (hw : Word "\x7b" mid rest) :
    Lacks '(' (trim cs) := by
  cases h with
  | bare => exact hw.lacks rfl (by decide)
  | typed hcolon _ => exact hcolon.lacks rfl (by decide)

def FuncOverruled (f : Func) : Prop := ∃ i ∈ f.instrs.getD [], Overruled i

lemma Function.length_lt {x : Func × Nat} (h : Function cs x rest) : rest.length < cs.length := by
  cases h with
  | mk hn hps ht hopen his hclose =>
    have := hn.length_lt
    have := hps.length_le
    have := ht.length_le
    have := hopen.length_le
    have := his.length_le Statement.length_lt
    have := hclose.length_le
    omega

/-- The reader follows every derivation of a function, unless it finds one of higher priority. -/
lemma Function.reads {x : Func × Nat} (h : Function cs x rest) (hc : c.rest = trim cs) :
    ∃ y c', func false c = some (y.1, c') ∧ c'.rest = rest ∧ Function cs y rest ∧
      Outranks FuncOverruled y x := by
  cases h with
  | mk hn hps ht hopen his hclose =>
    obtain ⟨c₁, hname, rfl⟩ := hn.reads hc
    obtain ⟨c₂, hparams, rfl⟩ := hps.reads (ht.lacks_paren hopen)
    obtain ⟨c₃, htype, rfl⟩ := ht.reads (hopen.lacks rfl (by decide)) (hopen.lacks rfl (by decide))
    obtain ⟨c₄, hbrace, rfl⟩ := nextWord_eq hopen
    obtain ⟨js, c₅, hbody, h₅, hjs, outranks⟩ :=
      follows_statement.untilBrace his hclose rfl (Nat.lt_succ_self _)
    refine ⟨_, c₅, ?_, h₅, .mk hn hps ht hopen hjs hclose, ?_⟩
    · simp [func, hname, hparams, htype, hbrace, hbody, position]
    · exact (outranks_list outranks).imp (fun h => by rw [h]) id

lemma follows_member : Follows member id Eq Member where
  shrinks h := by
    cases h with
    | mk hp hw => exact Nat.lt_of_le_of_lt hw.length_le hp.length_lt
  inside h := by
    cases h with
    | mk hp _ => exact hp.lacks rfl
  reads {cs _ _} h c hc := by
    have same := h
    cases h with
    | mk hp hw =>
      have start : trim c.rest = trim cs := by
        cases hp with
        | mk hn _ _ => rw [hc, hn.trim_trim]
      obtain ⟨c₁, hparam, rfl⟩ := hp.reads (hw.lacks rfl (by decide)) start
      obtain ⟨c₂, hsemi, h₂⟩ := nextWord_eq hw
      exact ⟨_, c₂, by simp [member, hparam, hsemi], h₂, same, rfl⟩

lemma Declaration.length_lt {s : Struct} (h : Declaration cs s rest) : rest.length < cs.length := by
  cases h with
  | mk hword hn heq hopen hms hclose =>
    have := hword.length_le
    have := hn.length_lt
    have := heq.length_le
    have := hopen.length_le
    have := hms.length_le follows_member.shrinks
    have := hclose.length_le
    omega

lemma Declaration.reads {s : Struct} (h : Declaration cs s rest) (hc : c.rest = trim cs) :
    func false c = none ∧ ∃ c', struct c = some (s, c') ∧ c'.rest = rest := by
  cases h with
  | mk hword hn heq hopen hms hclose =>
    have hat : markedName '@' c = none := markedName_eq_none (hc ▸ hword.lacks rfl (by decide))
    obtain ⟨c₁, h₁, rfl⟩ := word_eq (hc.trans hword)
    obtain ⟨c₂, hname, rfl⟩ := hn.reads (rest_skip c₁)
    obtain ⟨c₃, h₃, rfl⟩ := nextWord_eq heq
    obtain ⟨c₄, h₄, rfl⟩ := nextWord_eq hopen
    obtain ⟨ms, c₅, hbody, h₅, -, hms⟩ :=
      follows_member.untilBrace hms hclose rfl (Nat.lt_succ_self _)
    rw [forall₂_eq_eq_eq] at hms
    subst hms
    exact ⟨by simp [func, hat], c₅, by simp [struct, h₁, hname, h₃, h₄, hbody], h₅⟩

/-! ### Programs -/

def ItemOverruled : Func ⊕ Struct → Prop
  | .inl f => FuncOverruled f
  | .inr _ => False

lemma Item.length_lt {x : (Func ⊕ Struct) × Nat} (h : Item cs x rest) :
    rest.length < cs.length := by
  cases h with
  | func h => exact h.length_lt
  | struct h => exact h.length_lt

lemma Many.reads_items {xs : List ((Func ⊕ Struct) × Nat)} (h : Many Item cs xs rest)
    (done : trim rest = []) (hc : c.rest = cs) (hf : cs.length < fuel) :
    ∃ ys, items false fuel c = some ((ys.map Prod.fst).filterMap Sum.getLeft?,
        (ys.map Prod.fst).filterMap Sum.getRight?) ∧
      Many Item cs ys rest ∧ Forall₂ (Outranks ItemOverruled) ys xs := by
  induction h generalizing fuel c with
  | nil =>
    subst hc
    obtain _ | fuel := fuel
    · omega
    exact ⟨[], by simp [items, done], .nil, .nil⟩
  | cons hx _ ih =>
    subst hc
    have := hx.length_lt
    obtain _ | fuel := fuel
    · omega
    cases hx with
    | func hf =>
      have hne : trim c.rest ≠ [] := by
        cases hf with
        | mk hn _ _ _ _ _ => exact hn.trim_eq ▸ cons_ne_nil _ _
      obtain ⟨y, c₁, hread, h₁, hy, hyx⟩ := hf.reads (rest_skip c)
      obtain ⟨ys, hmore, hys, hyxs⟩ := @ih _ fuel done h₁ (by omega)
      refine ⟨(.inl y.1, y.2) :: ys, ?_, .cons (.func hy) hys, .cons ?_ hyxs⟩
      · simp [items, hne, hread, hmore, filterMap_cons, -filterMap_map]
      · exact hyx.imp (fun h => by rw [h]) id
    | struct hs =>
      have hne : trim c.rest ≠ [] := by
        cases hs with
        | mk hword _ _ _ _ _ => exact hword ▸ cons_ne_nil _ _
      obtain ⟨none, c₁, hread, h₁⟩ := hs.reads (rest_skip c)
      obtain ⟨ys, hmore, hys, hyxs⟩ := @ih _ fuel done h₁ (by omega)
      exact ⟨_ :: ys, by simp [items, hne, none, hread, hmore, filterMap_cons, -filterMap_map],
        .cons (.struct hs) hys, .cons (.inl rfl) hyxs⟩

def ProgramOverruled (p : Program) : Prop := ∃ f ∈ p.functions.getD [], FuncOverruled f

/-- Every text with a derivation is read, as a program of the highest priority: that of the
derivation, or one that ranks above it. -/
lemma Derives.reads {text : String} {p : Program} {m : Nat} (h : Derives text p m) :
    ∃ q k, Program.parse false text = .ok q ∧ Derives text q k ∧
      Outranks ProgramOverruled (q, k) (p, m) := by
  cases h with
  | mk hxs done =>
    obtain ⟨ys, hread, hys, outranks⟩ :=
      hxs.reads_items (c := .ofText text) done rfl (Nat.lt_succ_self _)
    refine ⟨_, _, ?_, .mk hys done, ?_⟩
    · have : (Cursor.ofText text).rest = text.toList := rfl
      simp [Program.parse, this, hread, program, -filterMap_map]
    · obtain rfl | ⟨hlt, x, hx, hover⟩ := outranks_list outranks
      · exact .inl rfl
      · refine .inr ⟨hlt, ?_⟩
        cases x with
        | inl f => exact ⟨f, mem_filterMap.mpr ⟨.inl f, hx, rfl⟩, hover⟩
        | inr s => exact hover.elim

/-- The reader is a parser of the grammar. -/
lemma runsGrammar_parse : RunsGrammar (Program.parse false) := by
  rintro text p ⟨m, hp, highest⟩
  obtain ⟨q, k, hread, hq, same | ⟨hlt, -⟩⟩ := hp.reads
  · cases same
    exact hread
  · obtain h | ⟨rfl, -⟩ := highest q k hq
    · exact absurd hlt (Nat.lt_asymm h)
    · exact absurd hlt (Nat.lt_irrefl _)

/-! The value of a derivation determines its priority. -/

def rank (i : Instr) : Nat :=
  if i.value.isSome then 4 else if i.dest.isSome then 3 else if i.op.isSome then 2 else 1

def funcRank (f : Func) : Nat := ((f.instrs.getD []).map rank).sum

lemma Statement.eq_rank {x : Instr × Nat} (h : Statement cs x rest) : x.2 = rank x.1 := by
  cases h with
  | const _ _ => rfl
  | value _ hop _ =>
    cases hop
    rfl
  | effect hop _ =>
    cases hop
    rfl
  | label _ _ => rfl

lemma Many.map_eq {α : Type} {P : List Char → α × Nat → List Char → Prop} {f : α → Nat}
    {xs : List (α × Nat)} (step : ∀ {cs x rest}, P cs x rest → x.2 = f x.1)
    (h : Many P cs xs rest) : xs.map Prod.snd = (xs.map Prod.fst).map f := by
  induction h with
  | nil => rfl
  | cons hx _ ih => rw [map_cons, map_cons, map_cons, ih, step hx]

lemma Function.eq_rank {x : Func × Nat} (h : Function cs x rest) : x.2 = funcRank x.1 := by
  cases h with
  | mk _ _ _ _ his _ => rw [his.map_eq Statement.eq_rank]; rfl

lemma Derives.eq_rank {text : String} {p : Program} {m : Nat} (h : Derives text p m) :
    m = ((p.functions.getD []).map funcRank).sum := by
  cases h with
  | @mk xs rest hxs done =>
    have items : xs.map Prod.snd = (xs.map Prod.fst).map (Sum.elim funcRank fun _ => 0) := by
      refine hxs.map_eq fun hx => ?_
      cases hx with
      | func h => exact h.eq_rank
      | struct _ => rfl
    have sum : ∀ zs : List (Func ⊕ Struct), (zs.map (Sum.elim funcRank fun _ => 0)).sum =
        ((zs.filterMap Sum.getLeft?).map funcRank).sum := by
      intro zs
      induction zs with
      | nil => rfl
      | cons z zs ih => cases z <;> simp [filterMap_cons, ih]
    rw [items]
    exact sum _

/-- A program without overruled operations is what its text stands for, once it has a derivation. -/
lemma Derives.resolves {text : String} {p : Program} {m : Nat} (h : Derives text p m)
    (clear : ¬ ProgramOverruled p) : Resolves text p := by
  obtain ⟨p', m', hread, -, same | ⟨-, hover⟩⟩ := h.reads
  · cases same
    refine ⟨m, h, fun q k hq => ?_⟩
    obtain ⟨q', k', hread', hq', outranks⟩ := hq.reads
    obtain rfl : p = q' := Except.ok.inj (hread.symm.trans hread')
    have hk : k' = m := hq'.eq_rank.trans h.eq_rank.symm
    obtain same | ⟨hlt, -⟩ := outranks
    · cases same
      exact .inr ⟨hk, rfl⟩
    · exact .inl (hk ▸ hlt)
  · exact absurd hover clear

end Grammar

end BrilKit
