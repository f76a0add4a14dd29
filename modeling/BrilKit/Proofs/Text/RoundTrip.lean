import BrilKit.Proofs.Text.Syntax

/-!
# Programs that read back

The text of a program in canonical form, in which empty lists, the type `void` and fields that the
text does not show are left out, stands for the program. `derives_render` gives a derivation part by
part, and `Grammar.Derives.resolves` shows that none of higher priority has another value, so every
parser that runs the grammar gives the program back (`parse_render`).
-/

namespace BrilKit

open List

/-- A parameter with a name and a type. -/
inductive Param.Canonical : Param → Prop where
  | mk {n : String} {t : Ty} :
    Parser.isName n = true →
    t.Canonical →
    Param.Canonical { name := some n, type := some t }

/-- A function that its text determines. -/
structure Func.Canonical (f : Func) : Prop where
  name : ∃ n, f.name = some n ∧ Parser.isName n = true
  args : ∀ ps ∈ f.args, ps ≠ [] ∧ ∀ p ∈ ps, p.Canonical
  type : ∀ t ∈ f.type, t ≠ .name "void" ∧ t.Canonical
  instrs : ∃ is, f.instrs = some is ∧ ∀ i ∈ is, i.Canonical
  extra : f.extra = []

/-- A program that its text determines. -/
structure Program.Canonical (p : Program) : Prop where
  functions : ∃ fs, p.functions = some fs ∧ ∀ f ∈ fs, f.Canonical
  structs : p.structs = none
  extra : p.extra = []

namespace Parser

open Cursor Grammar

/-! ### Parameters -/

/-- The text of a parameter. -/
lemma parameter_render {p : Param} (h : p.Canonical) :
    ∃ s, p.render = .ok s ∧ IsSolid s.toList ∧ ∀ cs rest, trim cs = s.toList ++ rest →
      StopsBefore isNamePart rest → Parameter cs p rest := by
  cases h with
  | @mk n t hn ht =>
    obtain ⟨s, hs, solid, typed⟩ := typed_render ht
    have htext : ∀ rest, (n ++ ": " ++ s).toList ++ rest =
        n.toList ++ ':' :: ' ' :: (s.toList ++ rest) := by simp
    refine ⟨n ++ ": " ++ s, ?_, ?_, fun cs rest hc stop => ?_⟩
    · simp [Param.render, Param.getName, Param.getType, Outcome.ofOption, hs]
    · rw [← append_nil (n ++ ": " ++ s).toList, htext]
      exact (isSolid_name hn).append _
    · exact .mk ⟨hc.trans (htext rest), hn, stopsBefore_cons.mpr rfl⟩ (word_mark rfl rfl _)
        (typed _ rest (by rw [trim_space, solid.trim_append]) stop)

/-- The texts of parameters after the first, and the closing parenthesis. -/
def moreParamChars (ss : List String) (rest : List Char) : List Char :=
  (ss.flatMap fun s => ", ".toList ++ s.toList) ++ ')' :: rest

lemma stopsBefore_moreParamChars (ss : List String) (rest : List Char) :
    StopsBefore isNamePart (moreParamChars ss rest) := by
  cases ss with
  | nil => exact stopsBefore_cons.mpr rfl
  | cons s ss => exact stopsBefore_cons.mpr rfl

lemma further_render {ps : List Param} (h : ∀ p ∈ ps, p.Canonical) :
    ∃ ss, ps.mapM Param.render = .ok ss ∧ ∀ rest,
      Many Further (moreParamChars ss rest) ps (')' :: rest) := by
  induction ps with
  | nil => exact ⟨[], rfl, fun _ => .nil⟩
  | cons p ps ih =>
    obtain ⟨s, hs, solid, parameter⟩ := parameter_render (h p mem_cons_self)
    obtain ⟨ss, hss, more⟩ := ih fun q hq => h q (mem_cons_of_mem p hq)
    refine ⟨s :: ss, by simp [hs, hss], fun rest => ?_⟩
    have htext : moreParamChars (s :: ss) rest =
        ',' :: ' ' :: (s.toList ++ moreParamChars ss rest) := by simp [moreParamChars]
    rw [htext]
    exact .cons (.mk (word_mark rfl rfl _) (parameter _ _ (by rw [trim_space, solid.trim_append])
      (stopsBefore_moreParamChars ss rest))) (more rest)

/-- The parameters of a function; without parameters there are no parentheses. -/
lemma parameters_render {f : Func} (h : ∀ ps ∈ f.args, ps ≠ [] ∧ ∀ p ∈ ps, p.Canonical)
    (extra : f.extra = []) :
    ∃ s ps, f.renderParams = .ok s ∧ (if ps.isEmpty then none else some ps) = f.args ∧
      ∀ rest, StopsBefore isNamePart rest →
        StopsBefore isNamePart (s.toList ++ rest) ∧ Parameters (s.toList ++ rest) ps rest := by
  cases hargs : f.args with
  | none =>
    exact ⟨"", [], by simp [Func.renderParams, hargs, extra], rfl, fun _ stop => ⟨stop, .bare⟩⟩
  | some ps =>
    obtain ⟨hne, hps⟩ := h ps hargs
    cases ps with
    | nil => exact absurd rfl hne
    | cons p ps =>
      obtain ⟨s, hs, solid, parameter⟩ := parameter_render (hps p mem_cons_self)
      obtain ⟨ss, hss, more⟩ := further_render fun q hq => hps q (mem_cons_of_mem p hq)
      refine ⟨"(" ++ ", ".intercalate (s :: ss) ++ ")", p :: ps, ?_, rfl, fun rest _ => ?_⟩
      · simp [Func.renderParams, hargs, mapM_cons, hs, hss]
      · have htext : ("(" ++ ", ".intercalate (s :: ss) ++ ")").toList ++ rest =
            '(' :: (s.toList ++ moreParamChars ss rest) := by
          rw [String.toList_append, String.toList_append, toList_intercalate_cons, moreParamChars]
          simp
        rw [htext]
        exact ⟨stopsBefore_cons.mpr rfl, .listed (word_mark rfl rfl _)
          (parameter _ _ (solid.trim_append _) (stopsBefore_moreParamChars ss rest)) (more rest)
          (word_mark rfl rfl _)⟩

/-! ### Functions -/

/-- The lines of a body, up to the closing brace. -/
lemma statements_render {is : List Instr} (h : ∀ i ∈ is, i.Canonical) :
    ∃ ls xs, is.mapM Instr.line = .ok ls ∧ xs.map Prod.fst = is ∧ ∀ more,
      ∃ rest, Many Statement ('\n' :: ((String.join ls).toList ++ '\x7d' :: more)) xs rest ∧
        Word "\x7d" rest more := by
  induction is with
  | nil =>
    exact ⟨[], [], rfl, rfl, fun more => ⟨_, .nil, word_behind rfl rfl rfl _⟩⟩
  | cons i is ih =>
    obtain ⟨l, m, hl, statement⟩ := statement_render (h i mem_cons_self)
    obtain ⟨ls, xs, hls, hxs, body⟩ := ih fun j hj => h j (mem_cons_of_mem i hj)
    refine ⟨l :: ls, (i, m) :: xs, by simp [mapM_cons, hl, hls], by rw [map_cons, hxs],
      fun more => ?_⟩
    obtain ⟨rest, hmany, hw⟩ := body more
    refine ⟨rest, .cons (statement _ _ ?_) hmany, hw⟩
    rw [trim_newline, String.join_cons, String.toList_append, append_assoc]

/-- The text of a function, behind the blanks in front of it. -/
lemma function_render {f : Func} (h : f.Canonical) :
    ∃ s m, f.render = .ok s ∧ ∀ cs more, trim cs = trim (s.toList ++ more) →
      Function cs (f, m) ('\n' :: more) := by
  obtain ⟨n, hname, hn⟩ := h.name
  obtain ⟨is, his, hcanon⟩ := h.instrs
  obtain ⟨ps, qs, hps, hqs, parameters⟩ := parameters_render h.args h.extra
  obtain ⟨ts, hts, annotation⟩ := annotation_render fun t ht => (h.type t ht).2
  obtain ⟨ls, xs, hls, hxs, body⟩ := statements_render hcanon
  have htype : f.renderType = .ok ts := by
    rw [Func.renderType, ← hts]
    cases ht : f.type with
    | none => rfl
    | some t => simp [(h.type t ht).1, typeText]
  refine ⟨"@" ++ n ++ ps ++ ts ++ " \x7b\n" ++ String.join ls ++ "\x7d\n",
    (xs.map Prod.snd).sum, ?_, fun cs more hc => ?_⟩
  · simp [Func.render, Func.getName, Func.body, hname, his, Outcome.ofOption, hps, htype, hls]
  · have htext : ("@" ++ n ++ ps ++ ts ++ " \x7b\n" ++ String.join ls ++ "\x7d\n").toList ++ more =
        '@' :: (n.toList ++ (ps.toList ++ (ts.toList ++ (' ' :: '\x7b' :: '\n' ::
          ((String.join ls).toList ++ '\x7d' :: '\n' :: more))))) := by simp
    rw [htext, trim_solid (by decide)] at hc
    obtain ⟨tstop, hann⟩ := annotation (' ' :: '\x7b' :: '\n' ::
      ((String.join ls).toList ++ '\x7d' :: '\n' :: more)) (stopsBefore_cons.mpr rfl)
    obtain ⟨pstop, hparams⟩ := parameters _ tstop
    obtain ⟨rest, hbody, hclose⟩ := body ('\n' :: more)
    have hf : f = { name := some n, args := if qs.isEmpty then none else some qs, type := f.type,
                    instrs := some (xs.map Prod.fst) } := by
      rw [hqs, hxs, ← hname, ← his, ← h.extra]
    rw [hf]
    exact .mk ⟨hc, hn, pstop⟩ hparams hann (word_behind rfl rfl rfl _) hbody hclose

/-! ### Programs -/

lemma items_render {fs : List Func} (h : ∀ f ∈ fs, f.Canonical) :
    ∃ ss xs, fs.mapM Func.render = .ok ss ∧ xs.map Prod.fst = fs.map Sum.inl ∧
      ∀ cs, trim cs = trim (String.join ss).toList → ∃ rest, Many Item cs xs rest ∧
        trim rest = [] := by
  induction fs with
  | nil => exact ⟨[], [], rfl, rfl, fun cs hc => ⟨cs, .nil, hc⟩⟩
  | cons f fs ih =>
    obtain ⟨s, m, hs, function⟩ := function_render (h f mem_cons_self)
    obtain ⟨ss, xs, hss, hxs, more⟩ := ih fun g hg => h g (mem_cons_of_mem f hg)
    refine ⟨s :: ss, (.inl f, m) :: xs, by simp [mapM_cons, hs, hss], by simp [hxs],
      fun cs hc => ?_⟩
    rw [String.join_cons, String.toList_append] at hc
    obtain ⟨rest, hmany, done⟩ := more ('\n' :: (String.join ss).toList) (trim_newline _)
    exact ⟨rest, .cons (.func (function cs _ hc)) hmany, done⟩

/-- The text of a canonical program has a derivation with the program as its value. -/
lemma derives_render {p : Program} (h : p.Canonical) :
    ∃ text m, p.render = .ok text ∧ Derives text p m := by
  obtain ⟨fs, hfs, canon⟩ := h.functions
  obtain ⟨ss, xs, hss, hxs, items⟩ := items_render canon
  obtain ⟨rest, hmany, done⟩ := items (String.join ss).toList rfl
  refine ⟨String.join ss, (xs.map Prod.snd).sum, ?_, ?_⟩
  · simp [Program.render, Program.funcs, hfs, Outcome.ofOption, hss, bind, Except.bind, pure,
      Except.pure]
  · have hp : p = program (xs.map Prod.fst) := by
      have left : (fs.map Sum.inl).filterMap (Sum.getLeft? (β := Struct)) = fs := by
        simp [filterMap_map, Function.comp_def]
      have right : (fs.map Sum.inl).filterMap (Sum.getRight? (β := Struct)) = [] := by simp
      rw [hxs, program, left, right, ← hfs]
      exact show p = { functions := p.functions } by rw [← h.structs, ← h.extra]
    rw [hp]
    exact .mk hmany done

lemma not_programOverruled {p : Program} (h : p.Canonical) : ¬ ProgramOverruled p := by
  rintro ⟨f, hf, i, hi, hover⟩
  obtain ⟨fs, hfs, canon⟩ := h.functions
  rw [hfs] at hf
  obtain ⟨is, his, items⟩ := (canon f hf).instrs
  rw [his] at hi
  exact not_overruled (items i hi) hover

end Parser

/-- Parsing undoes printing: every parser that runs the grammar reads the text of a canonical program
as the program. -/
theorem parse_render {p : Program} (h : p.Canonical) {parser : String → Outcome Program}
    (runs : Grammar.RunsGrammar parser) :
    ∃ text, p.render = .ok text ∧ parser text = .ok p := by
  obtain ⟨text, m, hrender, derives⟩ := Parser.derives_render h
  exact ⟨text, hrender, runs text p (derives.resolves (Parser.not_programOverruled h))⟩

/-- A function with a nested type, constants of two types, a call and a branch. -/
def Func.mixed : Func where
  name := some "main"
  args := some [{ name := some "p", type := some (.ptr (.ptr .int)) },
                { name := some "go.on", type := some .bool }]
  type := some .int
  instrs := some [
    { label := some "top" },
    { op := some "const", dest := some "x", type := some (.name "float"),
      value := some (.float (Float.ofBits 0xbe8421f5f40d8376)) },
    { op := some "const", dest := some "c", type := some (.name "char"),
      value := some (.str (String.singleton '\n')) },
    { op := some "call", dest := some "r", args := some ["x", "c"], funcs := some ["show"] },
    { op := some "br", args := some ["go.on"], labels := some ["top", "end"] },
    { label := some "end" },
    { op := some "ret", args := some ["r"] }]

lemma Func.mixed_canonical : Func.mixed.Canonical where
  name := ⟨"main", rfl, rfl⟩
  args ps hps := by
    cases hps
    refine ⟨cons_ne_nil _ _, ?_⟩
    rintro p (_ | ⟨_, _ | ⟨_, ⟨⟩⟩⟩)
    · exact .mk rfl ⟨rfl, rfl, rfl⟩
    · exact .mk rfl rfl
  type t ht := by
    cases ht
    exact ⟨by decide, rfl⟩
  instrs := by
    refine ⟨_, rfl, ?_⟩
    have float : Binary64.view (Float.ofBits 0xbe8421f5f40d8376) =
        .finite true 5666839779443574 (-75) := by
      rfl
    simp only [mem_cons, not_mem_nil, or_false, forall_eq_or_imp, forall_eq]
    refine ⟨.label rfl, .const rfl rfl (.float float), .const rfl rfl (.char _),
      .value rfl rfl rfl ?_ ?_ ?_ ?_, .effect rfl ?_ ?_ ?_ ?_, .label rfl, .effect rfl ?_ ?_ ?_ ?_⟩
      <;> simp [Parser.NamesField]
    all_goals decide
  extra := rfl

theorem parse_render_mixed : Program.Canonical { functions := some [.mixed] } ∧
    Grammar.RunsGrammar (Program.parse false) ∧
    ∃ text, Program.render { functions := some [.mixed] } = .ok text ∧
      Program.parse false text = .ok { functions := some [.mixed] } := by
  have canon : Program.Canonical { functions := some [.mixed] } := by
    refine ⟨⟨_, rfl, fun f hf => ?_⟩, rfl, rfl⟩
    rw [List.mem_singleton.mp hf]
    exact Func.mixed_canonical
  exact ⟨canon, Grammar.runsGrammar_parse, parse_render canon Grammar.runsGrammar_parse⟩

end BrilKit
