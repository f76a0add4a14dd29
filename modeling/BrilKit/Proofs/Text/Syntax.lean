import BrilKit.Proofs.Text.Literals

/-!
# The text of types and instructions

The text of a type, of a list of operands and of an instruction has a derivation whose value is what
it was written for, whatever follows it: `typed_render`, `operation_render` and `statement_render`.
That a derivation has no rival of higher priority is not shown here but in the grammar.
-/

namespace BrilKit

open List

def Ty.Canonical : Ty → Prop
  | .name s => Parser.isName s = true
  | .app k t => Parser.isName k = true ∧ t.Canonical
  | .other _ => False

namespace Parser

open Cursor Grammar

variable {cs rest r : List Char} {n : String} {t : Ty} {ts : List Operand}
  {o : Option (List String)} {i : Instr}

lemma isSolid_name (h : isName n = true) : IsSolid n.toList := by
  obtain ⟨ch, cs, hn, hch, _⟩ := isName_cons h
  exact ⟨ch, cs, hn, isSolid_of_isNameStart hch⟩

lemma IsSolid.append (h : IsSolid cs) (rest : List Char) : IsSolid (cs ++ rest) := by
  obtain ⟨ch, tail, rfl, hs⟩ := h
  exact ⟨ch, tail ++ rest, rfl, hs⟩

/-- A mark that stands directly in a text. -/
lemma word_mark {w : String} {ch : Char} (hw : w.toList = [ch]) (hs : isSolid ch = true)
    (rest : List Char) : Word w (ch :: rest) rest := by
  rw [Word, hw, trim_solid hs, singleton_append]

/-- A mark behind a blank. -/
lemma word_behind {w : String} {b ch : Char} (hw : w.toList = [ch]) (hs : isSolid ch = true)
    (hb : isBlank b = true) (rest : List Char) : Word w (b :: ch :: rest) rest := by
  rw [Word, trim_blank hb]
  exact word_mark hw hs rest

/-! ### Types -/

/-- The text of a type is a type of the grammar. -/
lemma typed_render (h : t.Canonical) :
    ∃ s, t.render = .ok s ∧ IsSolid s.toList ∧ ∀ cs rest, trim cs = s.toList ++ rest →
      StopsBefore isNamePart rest → Typed cs t rest := by
  induction t with
  | name n => exact ⟨n, rfl, isSolid_name h, fun cs rest hc stop => .name ⟨hc, h, stop⟩⟩
  | app k t ih =>
    obtain ⟨hk, ht⟩ := h
    obtain ⟨s, hs, solid, typed⟩ := ih ht
    have htext : ∀ rest, (k ++ "<" ++ s ++ ">").toList ++ rest =
        k.toList ++ '<' :: (s.toList ++ '>' :: rest) := by simp
    refine ⟨k ++ "<" ++ s ++ ">", by simp [Ty.render, hs], ?_, fun cs rest hc _ => ?_⟩
    · rw [← append_nil (String.toList _), htext]
      exact (isSolid_name hk).append _
    · exact .app ⟨hc.trans (htext rest), hk, stopsBefore_cons.mpr rfl⟩ (word_mark rfl rfl _)
        (typed _ _ (solid.trim_append _) (stopsBefore_cons.mpr rfl)) (word_mark rfl rfl _)
  | other d => exact h.elim

/-- The text of an annotation, which is not there without a type. -/
def typeText : Option Ty → Outcome String
  | some t => do return ": " ++ (← t.render)
  | none => .ok ""

/-- The text of an annotation goes in front of every text in front of which a name ends. -/
lemma annotation_render {t : Option Ty} (h : ∀ u ∈ t, u.Canonical) :
    ∃ s, typeText t = .ok s ∧ ∀ rest, StopsBefore isNamePart rest →
      StopsBefore isNamePart (s.toList ++ rest) ∧ Annotation (s.toList ++ rest) t rest := by
  cases t with
  | none => exact ⟨"", rfl, fun _ stop => ⟨stop, .bare⟩⟩
  | some u =>
    obtain ⟨s, hs, solid, typed⟩ := typed_render (h u rfl)
    have htext : ∀ rest, (": " ++ s).toList ++ rest = ':' :: ' ' :: (s.toList ++ rest) := by simp
    refine ⟨": " ++ s, by simp [typeText, hs], fun rest stop => ?_⟩
    rw [htext]
    exact ⟨stopsBefore_cons.mpr rfl, .typed (word_mark rfl rfl _)
      (typed _ _ (by rw [trim_space, solid.trim_append]) stop)⟩

/-! ### Operands -/

namespace Operand

def name : Operand → String
  | .func n => n
  | .arg n => n
  | .label n => n

def text : Operand → String
  | .func n => "@" ++ n
  | .arg n => n
  | .label n => "." ++ n

end Operand

def operandChars (ts : List Operand) : List Char := ts.flatMap fun t => ' ' :: t.text.toList

lemma stopsBefore_operandChars (ts : List Operand) (r : List Char) :
    StopsBefore isNamePart (operandChars ts ++ ';' :: r) := by
  cases ts with
  | nil => exact stopsBefore_cons.mpr rfl
  | cons t ts => exact stopsBefore_cons.mpr rfl

lemma argument_text {t : Operand} (h : isName t.name = true) (stop : StopsBefore isNamePart rest) :
    Argument (' ' :: (t.text.toList ++ rest)) t rest := by
  have marked : ∀ (mark : Char) (n : String), isSolid mark = true →
      trim (' ' :: (mark :: n.toList ++ rest)) = mark :: (n.toList ++ rest) := by
    intro mark n hs
    rw [trim_space, cons_append, trim_solid hs]
  cases t with
  | func n => exact .func ⟨by simpa [Operand.text] using marked '@' n rfl, h, stop⟩
  | label n => exact .label ⟨by simpa [Operand.text] using marked '.' n rfl, h, stop⟩
  | arg n => exact .arg ⟨by rw [trim_space]; exact trim_name h rest, h, stop⟩

lemma arguments_text (h : ∀ t ∈ ts, isName t.name = true) :
    Many Argument (operandChars ts ++ ';' :: r) ts (';' :: r) := by
  induction ts with
  | nil => exact .nil
  | cons t ts ih =>
    have htext : operandChars (t :: ts) ++ ';' :: r =
        ' ' :: (t.text.toList ++ (operandChars ts ++ ';' :: r)) := by simp [operandChars]
    rw [htext]
    exact .cons (argument_text (h t mem_cons_self) (stopsBefore_operandChars ts r))
      (ih fun u hu => h u (mem_cons_of_mem t hu))

/-! ### Operations -/

/-- The operands of an instruction in the order of its text. -/
def operandList (i : Instr) : List Operand :=
  (i.funcs.getD []).map .func ++ (i.args.getD []).map .arg ++ (i.labels.getD []).map .label

def NamesField (o : Option (List String)) : Prop := ∀ xs ∈ o, xs ≠ [] ∧ ∀ x ∈ xs, isName x = true

lemma NamesField.listField_getD (h : NamesField o) : listField (o.getD []) = o := by
  cases o with
  | none => rfl
  | some xs => simp [listField, (h xs rfl).1]

lemma NamesField.isName_of_mem (h : NamesField o) {x : String} (hx : x ∈ o.getD []) :
    isName x = true := by
  cases o with
  | none => cases hx
  | some xs => exact (h xs rfl).2 x hx

/-- An operation without fields of another form. -/
structure PlainOperands (i : Instr) : Prop where
  args : NamesField i.args
  funcs : NamesField i.funcs
  labels : NamesField i.labels
  extra : i.extra = []

lemma PlainOperands.isName_operandList (h : PlainOperands i) :
    ∀ t ∈ operandList i, isName t.name = true := by
  intro t ht
  simp only [operandList, mem_append, mem_map] at ht
  obtain (⟨n, hn, rfl⟩ | ⟨n, hn, rfl⟩) | ⟨n, hn, rfl⟩ := ht
  · exact h.funcs.isName_of_mem hn
  · exact h.args.isName_of_mem hn
  · exact h.labels.isName_of_mem hn

lemma foldl_addTo_operandList (i : Instr) :
    (operandList i).foldl Operand.addTo {} =
      { args := i.args.getD [], funcs := i.funcs.getD [], labels := i.labels.getD [] } := by
  have add : ∀ (f : String → Operand) (os : List String → Operands),
      (∀ n ns, (f n).addTo (os ns) = os (ns ++ [n])) →
      ∀ ns, (ns.map f).foldl Operand.addTo (os []) = os ns := by
    intro f os step ns
    induction ns using reverseRecOn with
    | nil => rfl
    | append_singleton ns n ih => simp [ih, step]
  rw [operandList, foldl_append, foldl_append, add .func (fun ns => { funcs := ns }) fun _ _ => rfl,
    add .arg (fun ns => { args := ns, funcs := i.funcs.getD [] }) fun _ _ => rfl,
    add .label (fun ns => ⟨i.args.getD [], i.funcs.getD [], ns⟩) fun _ _ => rfl]

lemma toList_intercalate_cons (sep x : String) (xs : List String) :
    (sep.intercalate (x :: xs)).toList = x.toList ++ xs.flatMap fun y => sep.toList ++ y.toList := by
  induction xs generalizing x with
  | nil => simp
  | cons y xs ih => rw [String.intercalate_cons_cons, String.toList_append, ih]; simp

lemma PlainOperands.renderOperation (h : PlainOperands i) (op : String) :
    ∃ s, i.renderOperation op = .ok s ∧ s.toList = op.toList ++ operandChars (operandList i) := by
  have hmarked : ∀ field mark o, i.marked field mark o = .ok ((o.getD []).map (mark ++ ·)) := by
    intro field mark o
    cases o with
    | some ss => rfl
    | none => simp [Instr.marked, Instr.looseItems, h.extra]
  have hargs : i.operands = .ok (i.args.getD []) := by
    rw [Instr.operands]
    cases i.args with
    | some ss => rfl
    | none => simp [Instr.looseItems, h.extra]
  refine ⟨_, by rw [Instr.renderOperation, hmarked, hargs, hmarked]; rfl, ?_⟩
  rw [cons_append, cons_append, toList_intercalate_cons, operandChars, operandList]
  simp only [flatMap_append, flatMap_map, Operand.text, append_assoc]
  rfl

lemma PlainOperands.operation (h : PlainOperands i) {op : String} (hop : isName op = true)
    (hc : trim cs = op.toList ++ (operandChars (operandList i) ++ ';' :: r)) :
    Operation cs { op := some op, args := i.args, funcs := i.funcs, labels := i.labels }
      (';' :: r) := by
  have hi : operationOf op (operandList i) =
      { op := some op, args := i.args, funcs := i.funcs, labels := i.labels } := by
    simp [operationOf, foldl_addTo_operandList, h.args.listField_getD, h.funcs.listField_getD,
      h.labels.listField_getD]
  rw [← hi]
  exact .mk ⟨hc, hop, stopsBefore_operandChars _ r⟩ (arguments_text h.isName_operandList)

end Parser

/-- An item of a body that its text determines: a label, a typed constant, an operation with a
result, or one without. -/
inductive Instr.Canonical : Instr → Prop where
  | label {l : String} :
    Parser.isName l = true →
    Instr.Canonical { label := some l }
  | const {d : String} {t : Ty} {v : Datum} :
    Parser.isName d = true →
    t.Canonical →
    Parser.Holds t v →
    Instr.Canonical { op := some "const", dest := some d, type := some t, value := some v }
  | value {op d : String} {t : Option Ty} {args funcs labels : Option (List String)} :
    Parser.isName op = true →
    "const".toList.isPrefixOf op.toList = false →
    Parser.isName d = true →
    (∀ u ∈ t, u.Canonical) →
    Parser.NamesField args →
    Parser.NamesField funcs →
    Parser.NamesField labels →
    Instr.Canonical { op := some op, dest := some d, type := t, args := args, funcs := funcs,
                      labels := labels }
  | effect {op : String} {args funcs labels : Option (List String)} :
    Parser.isName op = true →
    op ≠ "const" →
    Parser.NamesField args →
    Parser.NamesField funcs →
    Parser.NamesField labels →
    Instr.Canonical { op := some op, args := args, funcs := funcs, labels := labels }

namespace Parser

open Cursor Grammar

variable {cs rest : List Char} {d op s : String} {i : Instr}

lemma trim_line {tail : List Char} (h : isName d = true) (hs : s.toList = d.toList ++ tail)
    (more : List Char) : trim (("  " ++ s ++ ";\n").toList ++ more) =
      d.toList ++ (tail ++ ';' :: '\n' :: more) := by
  have : ("  " ++ s ++ ";\n").toList ++ more =
      ' ' :: ' ' :: (d.toList ++ (tail ++ ';' :: '\n' :: more)) := by simp [hs]
  rw [this, trim_space, trim_space, trim_name h]

/-- The text of the left side of an assignment, in front of what is assigned. -/
lemma target_text {t : Option Ty} (rs : String) (hd : isName d = true)
    (ht : ∀ u ∈ t, u.Canonical) :
    ∃ ts, typeText t = .ok ts ∧ ∀ cs more,
      trim cs = trim (("  " ++ (d ++ ts ++ " = " ++ rs) ++ ";\n").toList ++ more) →
      Target cs d t (' ' :: (rs.toList ++ ';' :: '\n' :: more)) := by
  obtain ⟨ts, hts, annotation⟩ := annotation_render ht
  refine ⟨ts, hts, fun cs more hc => ?_⟩
  have htext : (d ++ ts ++ " = " ++ rs).toList =
      d.toList ++ (ts.toList ++ (" = ".toList ++ rs.toList)) := by simp
  obtain ⟨stop, hann⟩ := annotation
    (' ' :: '=' :: ' ' :: (rs.toList ++ ';' :: '\n' :: more)) (stopsBefore_cons.mpr rfl)
  refine .mk ⟨?_, hd, stop⟩ hann (word_behind rfl rfl rfl _)
  rw [hc, trim_line hd htext]
  simp

/-- The line of an item and the statement that the grammar reads in it. -/
def WritesStatement (i : Instr) : Prop :=
  ∃ s m, i.line = .ok s ∧ ∀ cs more, trim cs = trim (s.toList ++ more) →
    Statement cs (i, m) ('\n' :: more)

lemma writes_label {l : String} (h : isName l = true) : WritesStatement { label := some l } := by
  refine ⟨"." ++ l ++ ":\n", 1, rfl, fun cs more hc => ?_⟩
  have htext : ("." ++ l ++ ":\n").toList ++ more = '.' :: (l.toList ++ ':' :: '\n' :: more) := by
    simp
  rw [htext, trim_solid (by decide)] at hc
  exact .label ⟨hc, h, stopsBefore_cons.mpr rfl⟩ (word_mark rfl rfl _)

lemma writes_const {t : Ty} {v : Datum} (hd : isName d = true) (ht : t.Canonical)
    (hv : Holds t v) : WritesStatement
      { op := some "const", dest := some d, type := some t, value := some v } := by
  obtain ⟨vs, hvs, solid, literal⟩ := renderValue_reads hv
  obtain ⟨ts, hts, target⟩ := target_text (t := some t) ("const " ++ vs) hd (by simpa using ht)
  refine ⟨_, 4, ?_, fun cs more hc => .const (target cs more hc) ?_⟩
  · have hmark : Instr.typeMark
        { op := some "const", dest := some d, type := some t, value := some v } = .ok ts := hts
    have htext : d ++ ts ++ " = " ++ ("const " ++ vs) = d ++ ts ++ " = const " ++ vs := by
      rw [show " = const " = " = " ++ "const " from rfl]
      simp only [String.append_assoc]
    simp [Instr.line, Instr.labelText, Instr.render, Instr.getOp, Instr.renderConst, hmark,
      Instr.destText, Instr.getType, Instr.getValue, Outcome.ofOption, hvs, htext]
  · have hword : Word "const" (' ' :: (("const " ++ vs).toList ++ ';' :: '\n' :: more))
        (' ' :: (vs.toList ++ ';' :: '\n' :: more)) := by
      rw [Word, trim_space, String.toList_append, append_assoc]
      exact trim_solid (by decide) _
    exact .mk hword (literal _ ('\n' :: more) (by rw [trim_space, solid.trim_append]))
      (word_mark rfl rfl _)

lemma line_operation (hop : i.op = some op) (hlabel : i.label = none) (hconst : op ≠ "const")
    (extra : i.extra = []) {os : String} (hos : i.renderOperation op = .ok os) :
    i.line = match i.dest with
      | some d => do return "  " ++ (d ++ (← typeText i.type) ++ " = " ++ os) ++ ";\n"
      | none => .ok ("  " ++ os ++ ";\n") := by
  have hmark : i.typeMark = typeText i.type := rfl
  cases hd : i.dest <;> cases ha : typeText i.type <;>
    simp [Instr.line, Instr.labelText, hlabel, extra, Instr.render, Instr.getOp, hop, hconst,
      Outcome.ofOption, hos, Instr.destText, hd, hmark, ha]

/-- The text of an operation with a result. -/
lemma writes_value (plain : PlainOperands i) (hop : isName op = true)
    (hi : i = { op := some op, dest := some d, type := i.type, args := i.args, funcs := i.funcs,
                labels := i.labels })
    (hconst : op ≠ "const") (hd : isName d = true) (ht : ∀ u ∈ i.type, u.Canonical) :
    WritesStatement i := by
  obtain ⟨os, hos, htail⟩ := plain.renderOperation op
  obtain ⟨ts, hts, target⟩ := target_text os hd ht
  refine ⟨"  " ++ (d ++ ts ++ " = " ++ os) ++ ";\n", 3, ?_, fun cs more hc => ?_⟩
  · rw [line_operation (by rw [hi]) (by rw [hi]) hconst plain.extra hos,
      show i.dest = some d by rw [hi], hts]
    rfl
  · rw [hi]
    exact .value (target cs more hc) (plain.operation hop
      (by rw [trim_space, htail, append_assoc, trim_name hop])) (word_mark rfl rfl _)

/-- The text of an operation without a result. -/
lemma writes_effect (plain : PlainOperands i) (hop : isName op = true)
    (hi : i = { op := some op, args := i.args, funcs := i.funcs, labels := i.labels })
    (hconst : op ≠ "const") : WritesStatement i := by
  obtain ⟨os, hos, htail⟩ := plain.renderOperation op
  refine ⟨"  " ++ os ++ ";\n", 2, ?_, fun cs more hc => ?_⟩
  · rw [line_operation (by rw [hi]) (by rw [hi]) hconst plain.extra hos,
      show i.dest = none by rw [hi]]
  · rw [hi]
    exact .effect (plain.operation hop (by rw [hc, trim_line hop htail])) (word_mark rfl rfl _)

/-- The line of a canonical item is a statement with the item as its value. -/
lemma statement_render (h : i.Canonical) : WritesStatement i := by
  cases h with
  | label hl => exact writes_label hl
  | const hd ht hv => exact writes_const hd ht hv
  | value hop hconst hd ht ha hf hl =>
    refine writes_value ⟨ha, hf, hl, rfl⟩ hop rfl ?_ hd ht
    rintro rfl
    cases hconst
  | effect hop hconst ha hf hl => exact writes_effect ⟨ha, hf, hl, rfl⟩ hop rfl hconst

/-- No constant takes the place of a canonical item. -/
lemma not_overruled (h : i.Canonical) : ¬ Overruled i := by
  rintro ⟨hvalue, hdest, op, hop, hpre⟩
  cases h with
  | label _ => cases hop
  | const _ _ _ => cases hvalue
  | value _ hconst _ _ _ _ _ =>
    cases hop
    rw [ isPrefixOf_iff_prefix.mpr hpre] at hconst
    cases hconst
  | effect _ _ _ _ _ => cases hdest

end Parser

end BrilKit
