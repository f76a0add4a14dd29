import BrilKit.Proofs.Data.Table
import BrilKit.Typing.Infer
import Mathlib

/-!
# The least typing of a body

Operations state types of their operands and results, and a copy passes the types of its source on.
Main statement: the inference ends with the least set of types that is closed under these rules,
written into the body, and fails exactly if it has two types for a variable.
-/

namespace BrilKit

open List Outcome Table

namespace Typing

variable {ctx ctx' ctx'' : Context} {position n : Nat} {i j : Instr} {is js all ks : List Instr}
  {x y op t u : String} {es : List (String × String)} {e : Fault}

/-! ### The facts of a body -/

/-- The types of the operands and of the result of an operation. -/
def operandTypes (op : String) : Option (String × String) :=
  if op ∈ arithmetic then some ("int", "int")
  else if op ∈ comparison then some ("int", "bool")
  else if op ∈ logic then some ("bool", "bool")
  else none

/-- The types that an instruction states. -/
def stated (i : Instr) : List (String × String) :=
  match i.op with
  | none => []
  | some op =>
    if op = "const" then i.dest.toList.zip (i.value.toList.map constType)
    else if op = "br" then i.uses.head?.toList.map (·, "bool")
    else match operandTypes op with
      | some (t, u) => i.uses.map (·, t) ++ i.dest.toList.map (·, u)
      | none => []

/-- An instruction copies one variable to another. -/
structure Copies (i : Instr) (d s : String) : Prop where
  op : i.op = some "id"
  dest : i.dest = some d
  source : i.uses.head? = some s

/-- The least set of types with those that are stated in which copies have the types of their
sources. -/
inductive Fact (is : List Instr) : String → String → Prop where
  | stated {i : Instr} {x t : String} (mem : i ∈ is) (fact : (x, t) ∈ stated i) : Fact is x t
  | copied {i : Instr} {d s t : String} (mem : i ∈ is) (copy : Copies i d s) (source : Fact is s t) :
    Fact is d t

def Conflict (is : List Instr) : Prop := ∃ x t u, t ≠ u ∧ Fact is x t ∧ Fact is x u

/-- An instruction has the fields that its operation needs. -/
structure Furnished (i : Instr) : Prop where
  value : i.op = some "const" → i.value.isSome
  args : ∀ op, i.op = some op → (operandTypes op).isSome → i.args.isSome
  source : i.op = some "br" ∨ i.op = some "id" → ∃ s, i.uses.head? = some s
  dest : ∀ op, i.op = some op → op = "const" ∨ op = "id" ∨ (operandTypes op).isSome → i.dest.isSome

lemma Fact.mono (sub : is ⊆ js) (h : Fact is x t) : Fact js x t := by
  induction h with
  | stated mem fact => exact .stated (sub mem) fact
  | copied mem copy _ ih => exact .copied (sub mem) copy ih

/-! ### What one instruction teaches -/

/-- The type that a copy passes on, if that of its source is known. -/
def passed (ctx : Context) (i : Instr) : List (String × String) :=
  if i.op = some "id" then (i.uses.head?.bind ctx.get?).toList.flatMap fun t => i.dest.toList.map (·, t)
  else []

lemma mem_passed : (x, t) ∈ passed ctx i ↔ ∃ s, Copies i x s ∧ ctx.get? s = some t := by
  unfold passed
  split
  · next op =>
    simp only [mem_flatMap, Option.mem_toList, Option.bind_eq_some_iff, mem_map, Prod.mk.injEq]
    constructor
    · rintro ⟨u, ⟨s, hs, hu⟩, d, hd, rfl, rfl⟩
      exact ⟨s, ⟨op, hd, hs⟩, hu⟩
    · rintro ⟨s, cp, hs⟩
      exact ⟨t, ⟨s, cp.source, hs⟩, x, cp.dest, rfl, rfl⟩
  · next op => simpa using fun s cp => absurd cp.op op

def learnAll (position : Nat) (ctx : Context) (es : List (String × String)) : Outcome Context :=
  es.foldlM (fun c e => learn position e.2 c e.1) ctx

/-- A context with more in it. -/
structure Grows (ctx ctx' : Context) : Prop where
  keeps : ∀ x t, ctx.get? x = some t → ctx'.get? x = some t
  size : ctx.size ≤ ctx'.size
  stable : ctx'.size = ctx.size → ctx' = ctx

lemma Grows.refl (ctx : Context) : Grows ctx ctx := ⟨fun _ _ h => h, le_rfl, fun _ => rfl⟩

lemma Grows.trans (h : Grows ctx ctx') (h' : Grows ctx' ctx'') : Grows ctx ctx'' where
  keeps x t hx := h'.keeps x t (h.keeps x t hx)
  size := h.size.trans h'.size
  stable e := by
    have e' := h'.stable (le_antisymm (e.trans_le h.size) h'.size)
    subst e'
    exact h.stable e

lemma Grows.antisymm (h : Grows ctx ctx') (h' : Grows ctx' ctx) : ctx' = ctx :=
  h.stable (le_antisymm h'.size h.size)

lemma learn_spec (h : learn position t ctx x = .ok ctx') :
    Grows ctx ctx' ∧ ctx'.get? x = some t ∧
      ∀ y u, ctx'.get? y = some u → ctx.get? y = some u ∨ (y, u) = (x, t) := by
  unfold learn at h
  split at h
  · next found hx =>
    split at h
    · next e =>
      cases h
      exact ⟨.refl ctx, e ▸ hx, fun y u hy => .inl hy⟩
    · cases h
  · next hx =>
    cases h
    have size : (ctx.put x t).size = ctx.size + 1 := by
      simp [Table.size, entries_put_of_not_mem (get?_eq_none.mp hx)]
    refine ⟨⟨fun y u hy => ?_, by omega, by omega⟩, get?_put_same, fun y u hy => ?_⟩
    · rw [get?_put, if_neg, hy]
      rintro rfl
      simp [hx] at hy
    · rw [get?_put] at hy
      split at hy
      · next e => exact .inr (by simpa [e] using hy.symm)
      · exact .inl hy

/-- The types taught are known afterwards, and nothing else is new. -/
structure Taught (es : List (String × String)) (ctx ctx' : Context) : Prop where
  grows : Grows ctx ctx'
  known : ∀ x t, (x, t) ∈ es → ctx'.get? x = some t
  new : ∀ x t, ctx'.get? x = some t → ctx.get? x = some t ∨ (x, t) ∈ es
  nodup : ctx.keys.Nodup → ctx'.keys.Nodup

lemma learnAll_spec (h : learnAll position ctx es = .ok ctx') : Taught es ctx ctx' := by
  induction es generalizing ctx with
  | nil =>
    cases h
    exact ⟨.refl _, by simp, fun _ _ => .inl, id⟩
  | cons e es ih =>
    obtain ⟨c, hc, h⟩ := foldlM_cons_eq_ok.mp h
    obtain ⟨g, known, new⟩ := learn_spec hc
    have rest := ih h
    refine ⟨g.trans rest.grows, fun y u hy => ?_, fun y u hy => ?_, fun nd => rest.nodup ?_⟩
    · obtain rfl | hy := mem_cons.mp hy
      · exact rest.grows.keeps y u known
      · exact rest.known y u hy
    · obtain hy | hy := rest.new y u hy
      · exact (new y u hy).imp_right (by simp +contextual)
      · exact .inr (mem_cons_of_mem e hy)
    · unfold learn at hc
      split at hc
      · split at hc <;> cases hc
        exact nd
      · cases hc
        exact nodup_put nd

lemma learnAll_error (h : learnAll position ctx es = .error e) : (∃ m, e = .illTyped m) ∧
    ∃ x t u, t ≠ u ∧ (x, t) ∈ es ∧ (ctx.get? x = some u ∨ (x, u) ∈ es) := by
  induction es generalizing ctx with
  | nil => cases h
  | cons f es ih =>
    rw [learnAll, foldlM_cons, bind_eq_error] at h
    obtain h | ⟨c, hc, h⟩ := h
    · unfold learn at h
      split at h
      · next u hu =>
        split at h <;> cases h
        next ne => exact ⟨⟨_, rfl⟩, f.1, f.2, u, Ne.symm ne, by simp, .inl hu⟩
      · cases h
    · obtain ⟨kind, x, t, u, ne, ht, hu⟩ := ih h
      refine ⟨kind, x, t, u, ne, mem_cons_of_mem f ht, ?_⟩
      obtain hu | hu := hu
      · exact ((learn_spec hc).2.2 x u hu).imp_right (by simp +contextual)
      · exact .inr (mem_cons_of_mem f hu)

def taught (ctx : Context) (i : Instr) : List (String × String) := stated i ++ passed ctx i

lemma learnAll_single : learnAll position ctx [(x, t)] = learn position t ctx x := by
  simp only [learnAll, foldlM_cons, foldlM_nil, bind_pure]

lemma learnDest_eq : i.getDest >>= learn position t ctx =
      learnAll position ctx (i.dest.toList.map (·, t)) ∨
    i.dest = none ∧ ∃ e, i.getDest >>= learn position t ctx = .error e := by
  cases hd : i.dest with
  | none => exact .inr ⟨rfl, _, by rw [Instr.getDest, hd]; rfl⟩
  | some d =>
    rw [Option.toList_some, map_singleton, learnAll_single, Instr.getDest, hd]
    exact .inl rfl

lemma learnOperation_eq :
    learnOperation position t u ctx i =
        learnAll position ctx (i.uses.map (·, t) ++ i.dest.toList.map (·, u)) ∨
      (i.args = none ∨ i.dest = none) ∧ ∃ e, learnOperation position t u ctx i = .error e := by
  cases ha : i.args with
  | none => exact .inr ⟨.inl rfl, _, by simp [learnOperation, Instr.getArgs, ha]; rfl⟩
  | some xs =>
    have e : learnOperation position t u ctx i =
        learnAll position ctx (xs.map (·, t)) >>= fun c => i.getDest >>= learn position u c := by
      simp [learnOperation, learnAll, Instr.getArgs, ha, foldlM_map]
      rfl
    have e' : learnAll position ctx (xs.map (·, t) ++ i.dest.toList.map (·, u)) =
        learnAll position ctx (xs.map (·, t)) >>= fun c =>
          learnAll position c (i.dest.toList.map (·, u)) := foldlM_append
    rw [e, Instr.uses, ha, Option.getD_some, e']
    cases learnAll position ctx (xs.map (·, t)) with
    | error e => exact .inl rfl
    | ok c => exact learnDest_eq.imp_right (And.imp_left .inr)

/-- An instruction is learned as a list of types, unless it lacks a field and fails. -/
def LearnsAll (position : Nat) (ctx : Context) (i : Instr) (op : String) : Prop :=
  learnInstr position ctx i op = learnAll position ctx (taught ctx i) ∨
    ¬ Furnished i ∧ ∃ e, learnInstr position ctx i op = .error e

lemma learnConst_eq (hop : i.op = some "const") : LearnsAll position ctx i "const" := by
  cases hv : i.value with
  | none =>
    refine .inr ⟨fun f => by simpa [hv] using f.value hop, .missing "value", ?_⟩
    simp [learnInstr, Instr.getValue, hv, ofOption]
  | some v =>
    have e : taught ctx i = i.dest.toList.map (·, constType v) := by
      cases hd : i.dest <;> simp [taught, stated, passed, hop, hv, hd]
    have e' : learnInstr position ctx i "const" = i.getDest >>= learn position (constType v) ctx := by
      simp [learnInstr, Instr.getValue, hv, ofOption]
    rw [LearnsAll, e, e']
    exact learnDest_eq.imp_right (And.imp_left fun none f => by
      simpa [none] using f.dest _ hop (.inl rfl))

lemma firstArg_cases (i : Instr) :
    (∃ s xs, i.args = some (s :: xs)) ∨ i.args = none ∨ i.args = some [] := by
  rcases i.args with _ | _ | ⟨s, xs⟩ <;> simp

/-- A branch or a copy without an argument. -/
lemma learnInstr_no_arg (hop : i.op = some op) (one : op = "br" ∨ op = "id")
    (none : i.args = none ∨ i.args = some []) :
    ¬ Furnished i ∧ ∃ e, learnInstr position ctx i op = .error e := by
  refine ⟨fun f => ?_, ?_⟩
  · obtain ⟨s, hs⟩ := f.source (by rwa [hop, Option.some.injEq, Option.some.injEq])
    obtain none | none := none <;> simp [Instr.uses, none] at hs
  · obtain none | none := none <;> obtain rfl | rfl := one <;>
      simp [learnInstr, arithmetic, comparison, logic, Instr.getArgs, none, ofOption] <;>
      exact ⟨_, rfl⟩

lemma learnBranch_eq (hop : i.op = some "br") : LearnsAll position ctx i "br" := by
  obtain ⟨s, xs, ha⟩ | none := firstArg_cases i
  · have e : taught ctx i = [(s, "bool")] := by simp [taught, stated, passed, hop, Instr.uses, ha]
    rw [LearnsAll, e, learnAll_single]
    refine .inl ?_
    simp [learnInstr, Instr.getArgs, ha]
    rfl
  · exact .inr (learnInstr_no_arg hop (.inl rfl) none)

lemma learnCopy_eq (hop : i.op = some "id") : LearnsAll position ctx i "id" := by
  obtain ⟨s, xs, ha⟩ | none := firstArg_cases i
  · have e : taught ctx i = (ctx.get? s).toList.flatMap fun t => i.dest.toList.map (·, t) := by
      simp [taught, stated, passed, hop, Instr.uses, ha, operandTypes, arithmetic, comparison, logic]
    have e' : learnInstr position ctx i "id" = (ctx.get? s).elim (.ok ctx) fun t =>
        i.getDest >>= learn position t ctx := by
      simp [learnInstr, arithmetic, comparison, logic, Instr.getArgs, ha, ofOption]
      cases h : ctx.get? s <;> simp [itemAt, h]
    rw [LearnsAll, e, e']
    cases ctx.get? s with
    | none => exact .inl rfl
    | some t =>
      rw [Option.toList_some, flatMap_singleton]
      exact learnDest_eq.imp_right (And.imp_left fun none f => by
        simpa [none] using f.dest _ hop (.inr (.inl rfl)))
  · exact .inr (learnInstr_no_arg hop (.inr rfl) none)

lemma learnInstr_eq (position : Nat) (ctx : Context) (hop : i.op = some op) :
    LearnsAll position ctx i op := by
  by_cases const : op = "const"
  · subst const
    exact learnConst_eq hop
  by_cases br : op = "br"
  · subst br
    exact learnBranch_eq hop
  by_cases copy : op = "id"
  · subst copy
    exact learnCopy_eq hop
  cases types : operandTypes op with
  | none =>
    have none : learnInstr position ctx i op = .ok ctx := by
      unfold operandTypes at types
      split_ifs at types with a c l
      simp [learnInstr, const, br, copy, a, c, l]
    exact .inl (by simp [none, taught, stated, passed, hop, const, br, copy, types, learnAll])
  | some tu =>
    have e : learnInstr position ctx i op = learnOperation position tu.1 tu.2 ctx i := by
      unfold operandTypes at types
      split_ifs at types with a c l <;> cases types <;> simp [learnInstr, *]
    have e' : taught ctx i = i.uses.map (·, tu.1) ++ i.dest.toList.map (·, tu.2) := by
      simp [taught, stated, passed, hop, const, br, copy, types]
    rw [LearnsAll, e, e']
    refine learnOperation_eq.imp_right (And.imp_left fun lacks f => ?_)
    have args := f.args op hop (by simp [types])
    have dest := f.dest op hop (.inr (.inr (by simp [types])))
    obtain lacks | lacks := lacks <;> simp [lacks] at args dest

/-! ### Rounds -/

def untouchedBy (i : Instr) : Bool := i.op.all untouched.contains

/-- An instruction with the type of its result, if it is one that gets a type. -/
def typed (ctx : Context) (i : Instr) : Instr := if untouchedBy i then i else annotate ctx i

lemma annotate_congr (same : ∀ x, ctx.get? x = ctx'.get? x) : annotate ctx i = annotate ctx' i := by
  have e : ctx.get? = ctx'.get? := funext same
  rw [annotate, annotate, e]

lemma taught_untouched (h : untouchedBy i) : taught ctx i = [] := by
  unfold taught stated passed
  cases hop : i.op with
  | none => simp
  | some op =>
    have mem : op ∈ untouched := by simpa [untouchedBy, hop] using h
    simp only [untouched, mem_cons, not_mem_nil, or_false] at mem
    obtain rfl | rfl | rfl | rfl := mem <;> simp [operandTypes, arithmetic, comparison, logic]

lemma inferInstr_eq (position : Nat) (ctx : Context) (i : Instr) : inferInstr position ctx i =
      (learnAll position ctx (taught ctx i) >>= fun c => pure (c, typed c i)) ∨
    ¬ Furnished i ∧ ∃ e, inferInstr position ctx i = .error e := by
  by_cases idle : untouchedBy i = true
  · refine .inl ?_
    rw [taught_untouched idle]
    unfold inferInstr typed
    simp only [idle, if_true]
    cases hop : i.op with
    | none => rfl
    | some op =>
      have mem : untouched.contains op = true := by simpa [untouchedBy, hop] using idle
      simp only [mem, if_true]
      rfl
  · cases hop : i.op with
    | none => simp [untouchedBy, hop] at idle
    | some op =>
      have mem : op ∉ untouched := by simpa [untouchedBy, hop] using idle
      have e : inferInstr position ctx i =
          learnInstr position ctx i op >>= fun c => pure (c, typed c i) := by
        simp [inferInstr, hop, mem, typed, idle]
      rw [e]
      obtain h | ⟨lacks, f, hf⟩ := learnInstr_eq position ctx hop
      · exact .inl (by rw [h])
      · exact .inr ⟨lacks, f, by rw [hf]; rfl⟩

/-- An instruction whose type has been written with what was known before. -/
def Retyped (ctx : Context) (i j : Instr) : Prop := ∃ c, Grows c ctx ∧ j = typed c i

lemma Retyped.mono (h : Retyped ctx i j) (g : Grows ctx ctx') : Retyped ctx' i j :=
  h.imp fun _ both => ⟨both.1.trans g, both.2⟩

namespace Retyped

variable (r : Retyped ctx i j)
include r

lemma exists_eq : ∃ t, j = { i with type := t } := by
  obtain ⟨c, -, rfl⟩ := r
  unfold typed annotate
  split
  · exact ⟨i.type, rfl⟩
  · split
    · exact ⟨_, rfl⟩
    · exact ⟨i.type, rfl⟩

lemma taught_eq : taught ctx' j = taught ctx' i := by
  obtain ⟨t, rfl⟩ := r.exists_eq
  rfl

lemma furnished (f : Furnished i) : Furnished j := by
  obtain ⟨t, rfl⟩ := r.exists_eq
  exact ⟨f.value, f.args, f.source, f.dest⟩

/-- A type is written anew when more is known. -/
lemma typed_eq (g : Grows ctx ctx') : typed ctx' j = typed ctx' i := by
  obtain ⟨c, gc, rfl⟩ := r
  by_cases idle : untouchedBy i = true
  · simp [typed, idle]
  · have e : typed c i = annotate c i := by simp [typed, idle]
    rw [e]
    unfold annotate
    split
    · next t ht =>
      obtain ⟨d, hd, hx⟩ := Option.bind_eq_some_iff.mp ht
      have later := g.keeps d t (gc.keeps d t hx)
      have idle' : untouchedBy { i with type := some (.name t) } = untouchedBy i := rfl
      rw [typed, idle', typed, if_neg idle, if_neg idle]
      simp [annotate, hd, later]
    · rfl

end Retyped

/-- A context that holds nothing but facts. -/
def Known (is : List Instr) (ctx : Context) : Prop := ∀ x t, ctx.get? x = some t → Fact is x t

lemma Known.fact (known : Known is ctx) (mem : i ∈ is) (h : (x, t) ∈ taught ctx i) : Fact is x t := by
  obtain h | h := mem_append.mp h
  · exact .stated mem h
  · obtain ⟨s, copy, hs⟩ := mem_passed.mp h
    exact .copied mem copy (known s t hs)

lemma Known.taught (known : Known is ctx) (mem : i ∈ is) (tg : Taught (taught ctx i) ctx ctx') :
    Known is ctx' := fun x t hx =>
  (tg.new x t hx).elim (known x t) (known.fact mem)

lemma inferInstr_spec {k : Instr} (r : Retyped ctx i j)
    (h : inferInstr position ctx j = .ok (ctx', k)) :
    Taught (taught ctx i) ctx ctx' ∧ k = typed ctx' i := by
  obtain e | ⟨-, f, hf⟩ := inferInstr_eq position ctx j
  · rw [e, r.taught_eq] at h
    obtain ⟨c, hc, h⟩ := of_bind h
    cases h
    have tg := learnAll_spec hc
    exact ⟨tg, r.typed_eq tg.grows⟩
  · cases hf.symm.trans h

/-- What a round over a part of a body learns and writes. -/
structure Round (all : List Instr) (ctx ctx' : Context) (is js : List Instr) : Prop where
  grows : Grows ctx ctx'
  known : Known all ctx → Known all ctx'
  nodup : ctx.keys.Nodup → ctx'.keys.Nodup
  retyped : Forall₂ (Retyped ctx') is js
  settled : ctx' = ctx → (∀ i ∈ is, ∀ x t, (x, t) ∈ taught ctx i → ctx.get? x = some t) ∧
    js = is.map (typed ctx)

lemma inferRound_spec (rt : Forall₂ (Retyped ctx) is ks) (sub : is ⊆ all)
    (h : inferRound position ctx ks = .ok (ctx', js)) : Round all ctx ctx' is js := by
  induction is generalizing position ctx js ks with
  | nil =>
    cases rt
    cases h
    exact ⟨.refl _, id, id, .nil, fun _ => ⟨by simp, rfl⟩⟩
  | cons i is ih =>
    obtain _ | ⟨r, rt⟩ := rt
    obtain ⟨⟨c, j⟩, hi, h⟩ := of_bind h
    obtain ⟨⟨c', js'⟩, his, h⟩ := of_bind h
    cases h
    obtain ⟨tg, rfl⟩ := inferInstr_spec r hi
    have rd := ih (rt.imp fun _ _ r => r.mono tg.grows) (fun _ hj => sub (mem_cons_of_mem i hj)) his
    refine ⟨tg.grows.trans rd.grows, fun kn => rd.known (kn.taught (sub mem_cons_self) tg),
      rd.nodup ∘ tg.nodup, .cons ⟨c, rd.grows, rfl⟩ rd.retyped, fun e => ?_⟩
    -- Nothing was learned on the whole, so nothing was learned on the way.
    subst e
    obtain rfl : c = ctx' := tg.grows.antisymm rd.grows
    obtain ⟨rest, rfl⟩ := rd.settled rfl
    exact ⟨forall_mem_cons.mpr ⟨tg.known, rest⟩, rfl⟩

/-- A round over instructions with their fields fails on a variable with two types. -/
lemma inferRound_error (rt : Forall₂ (Retyped ctx) is ks) (sub : is ⊆ all)
    (furnished : ∀ i ∈ is, Furnished i) (known : Known all ctx)
    (h : inferRound position ctx ks = .error e) : (∃ m, e = .illTyped m) ∧ Conflict all := by
  induction is generalizing position ctx ks with
  | nil =>
    cases rt
    cases h
  | cons i is ih =>
    obtain _ | @⟨_, k, _, _, r, rt⟩ := rt
    obtain h | ⟨⟨c, j⟩, hi, h⟩ := bind_eq_error.mp h
    · obtain e' | ⟨lacks, -⟩ := inferInstr_eq position ctx k
      · rw [e', r.taught_eq] at h
        obtain h | ⟨_, -, h⟩ := bind_eq_error.mp h
        · obtain ⟨kind, x, t, u, ne, ht, hu⟩ := learnAll_error h
          have fact : ∀ {t}, (x, t) ∈ taught ctx i → Fact all x t := known.fact (sub mem_cons_self)
          exact ⟨kind, x, t, u, ne, fact ht, hu.elim (known x u) fact⟩
        · cases h
      · exact absurd (r.furnished (furnished i mem_cons_self)) lacks
    · obtain rest | ⟨_, -, done⟩ := bind_eq_error.mp h
      · obtain ⟨tg, rfl⟩ := inferInstr_spec r hi
        exact ih (rt.imp fun _ _ r => r.mono tg.grows) (fun _ hj => sub (mem_cons_of_mem i hj))
          (fun j hj => furnished j (mem_cons_of_mem i hj)) (known.taught (sub mem_cons_self) tg) rest
      · cases done

lemma Fact.get? (settled : ∀ i ∈ is, ∀ x t, (x, t) ∈ taught ctx i → ctx.get? x = some t)
    (h : Fact is x t) : ctx.get? x = some t := by
  induction h with
  | stated mem fact => exact settled _ mem _ _ (mem_append_left _ fact)
  | copied mem copy _ ih =>
    exact settled _ mem _ _ (mem_append_right _ (mem_passed.mpr ⟨_, copy, ih⟩))

/-- The rounds end with the facts, written into the body. -/
lemma inferWithin_spec (known : Known is ctx) (rt : Forall₂ (Retyped ctx) is ks)
    (h : inferWithin n ctx ks = .ok js) :
    ∃ Γ : Context, (∀ x t, Fact is x t ↔ Γ.get? x = some t) ∧ js = is.map (typed Γ) := by
  induction n generalizing ctx ks with
  | zero => cases h
  | succ n ih =>
    obtain ⟨⟨next, js'⟩, hround, h⟩ := of_bind h
    have rd := inferRound_spec rt (Subset.refl is) hround
    dsimp only at h
    split at h
    · next stable =>
      obtain rfl : js' = js := pure_eq_ok.mp h
      obtain rfl := rd.grows.stable stable
      obtain ⟨settled, rfl⟩ := rd.settled rfl
      exact ⟨next, fun x t => ⟨Fact.get? settled, known x t⟩, rfl⟩
    · exact ih (rd.known known) rd.retyped h

/-! ### Termination -/

def mentioned (is : List Instr) : List String := is.flatMap fun i => i.uses ++ i.dest.toList

lemma occurrences_eq : occurrences is = (mentioned is).length := by
  have from_ : ∀ n, is.foldl (fun n i => n + (i.uses.length + i.dest.toList.length)) n =
      n + (mentioned is).length := by
    induction is with
    | nil => simp [mentioned]
    | cons i is ih =>
      intro n
      rw [foldl_cons, ih]
      simp [mentioned, Nat.add_assoc]
  exact (from_ 0).trans (Nat.zero_add _)

lemma mem_of_stated (h : (x, t) ∈ stated i) : x ∈ i.uses ++ i.dest.toList := by
  unfold stated at h
  split at h
  · cases h
  · split_ifs at h
    · exact mem_append_right _ (of_mem_zip h).1
    · obtain ⟨s, hs, e⟩ := mem_map.mp h
      cases e
      exact mem_append_left _ (mem_of_mem_head? (Option.mem_toList.mp hs))
    · split at h
      · simp only [mem_append, mem_map, Prod.mk.injEq] at h ⊢
        obtain ⟨_, hx, rfl, -⟩ | ⟨_, hx, rfl, -⟩ := h
        · exact .inl hx
        · exact .inr hx
      · cases h

lemma Fact.mem_mentioned (h : Fact is x t) : x ∈ mentioned is := by
  induction h with
  | stated mem fact => exact mem_flatMap.mpr ⟨_, mem, mem_of_stated fact⟩
  | copied mem copy =>
    exact mem_flatMap.mpr ⟨_, mem, mem_append_right _ (Option.mem_toList.mpr copy.dest)⟩

lemma Known.size_le (known : Known is ctx) (nd : ctx.keys.Nodup) :
    ctx.size ≤ (mentioned is).length := by
  have sub : ctx.keys ⊆ mentioned is := fun x hx => by
    obtain ⟨t, ht⟩ := mem_keys.mp hx
    exact (known x t ht).mem_mentioned
  simpa [Table.keys, Table.size] using (subperm_of_subset nd sub).length_le

/-- Every round but the last one learns about a variable, so the rounds do not run out. -/
lemma inferWithin_error (furnished : ∀ i ∈ is, Furnished i) (known : Known is ctx)
    (nd : ctx.keys.Nodup) (rt : Forall₂ (Retyped ctx) is ks)
    (enough : (mentioned is).length + 2 ≤ ctx.size + n) (h : inferWithin n ctx ks = .error e) :
    (∃ m, e = .illTyped m) ∧ Conflict is := by
  induction n generalizing ctx ks with
  | zero =>
    have := known.size_le nd
    omega
  | succ n ih =>
    obtain h | ⟨⟨next, js⟩, hround, h⟩ := bind_eq_error.mp h
    · exact inferRound_error rt (Subset.refl is) furnished known h
    · have rd := inferRound_spec rt (Subset.refl is) hround
      dsimp only at h
      split at h
      · cases h
      · next grown =>
        have := rd.grows.size
        exact ih (rd.known known) (rd.nodup nd) rd.retyped (by omega) h

lemma retyped_self : Forall₂ (Retyped .empty) is is := by
  refine forall₂_same.mpr fun i _ => ⟨.empty, .refl _, ?_⟩
  have none : i.dest.bind (Table.empty : Context).get? = none := by cases i.dest <;> rfl
  simp [typed, annotate, none]

lemma inferBody_spec (h : inferBody is = .ok js) :
    ∃ Γ : Context, (∀ x t, Fact is x t ↔ Γ.get? x = some t) ∧ js = is.map (typed Γ) :=
  inferWithin_spec (by simp [Known]) retyped_self h

lemma inferBody_error (furnished : ∀ i ∈ is, Furnished i) (h : inferBody is = .error e) :
    (∃ m, e = .illTyped m) ∧ Conflict is := by
  refine inferWithin_error furnished (show Known is .empty by simp [Known]) nodup_nil retyped_self ?_ h
  rw [occurrences_eq]
  exact Nat.le_add_left _ _

/-- For functions with instructions that have their fields, in whatever order they stand, the
inference fails exactly if some variable has two types among the facts. Otherwise it gives back the
function, and the instructions that get a type have that of their result among the facts. -/
theorem inferBody_least (furnished : ∀ i ∈ is, Furnished i) :
    (Conflict is → ∀ f js, f.body = .ok js → js.Perm is →
      ∃ m, Func.mapBodyM inferBody f = .error (.illTyped m)) ∧
    (¬ Conflict is → ∃ Γ : Context, (∀ x t, Fact is x t ↔ Γ.get? x = some t) ∧
      ∀ f js, f.body = .ok js → js.Perm is →
        Func.mapBodyM inferBody f = .ok (f.withBody (js.map (typed Γ)))) := by
  have same : ∀ {js}, js.Perm is → ∀ x t, Fact js x t ↔ Fact is x t := fun perm x t =>
    ⟨Fact.mono perm.subset, Fact.mono perm.symm.subset⟩
  have run : ∀ {f js}, Func.body f = .ok js → Func.mapBodyM inferBody f =
      inferBody js >>= fun ks => pure (f.withBody ks) := fun hf => by rw [Func.mapBodyM, hf]; rfl
  have result : ∀ {js}, js.Perm is → (∃ Γ : Context, (∀ x t, Fact is x t ↔ Γ.get? x = some t) ∧
      inferBody js = .ok (js.map (typed Γ))) ∨
        (∃ m, inferBody js = .error (.illTyped m)) ∧ Conflict is := by
    intro js perm
    cases h : inferBody js with
    | ok ks =>
      obtain ⟨Γ, facts, rfl⟩ := inferBody_spec h
      exact .inl ⟨Γ, fun x t => (same perm x t).symm.trans (facts x t), rfl⟩
    | error e =>
      obtain ⟨⟨m, rfl⟩, x, t, u, ne, ht, hu⟩ :=
        inferBody_error (fun i hi => furnished i (perm.mem_iff.mp hi)) h
      exact .inr ⟨⟨m, rfl⟩, x, t, u, ne, (same perm x t).mp ht, (same perm x u).mp hu⟩
  constructor
  · rintro ⟨x, t, u, ne, ht, hu⟩ f js hf perm
    obtain ⟨Γ, facts, -⟩ | ⟨⟨m, h⟩, -⟩ := result perm
    · rw [facts] at ht hu
      exact absurd (Option.some.inj (ht.symm.trans hu)) ne
    · exact ⟨m, by rw [run hf, h]; rfl⟩
  · intro clear
    obtain ⟨Γ, facts, -⟩ := (result (.refl is)).resolve_right fun h => clear h.2
    refine ⟨Γ, facts, fun f js hf perm => ?_⟩
    obtain ⟨Γ', facts', h⟩ := (result perm).resolve_right fun h => clear h.2
    have agree : ∀ x, Γ'.get? x = Γ.get? x := fun x => Option.ext fun t =>
      (facts' x t).symm.trans (facts x t)
    have types : js.map (typed Γ') = js.map (typed Γ) :=
      map_congr_left fun i _ => by rw [typed, typed, annotate_congr agree]
    rw [run hf, h, types]
    rfl

/-- A variable that is set to a number and to a truth value. -/
def twoKinds : List Instr := [
  { op := some "const", dest := some "x", value := some (.int 1) },
  { op := some "const", dest := some "x", value := some (.bool true) }]

theorem inferBody_least_twoKinds :
    ∃ m, Func.mapBodyM inferBody { instrs := some twoKinds } = .error (.illTyped m) := by
  refine (inferBody_least fun i hi => ?_).1 ⟨"x", "int", "bool", by decide,
    .stated mem_cons_self (by decide), .stated (mem_cons_of_mem _ mem_cons_self) (by decide)⟩
    _ _ rfl (.refl _)
  obtain rfl | rfl := by simpa [twoKinds] using hi
  all_goals
    exact ⟨by simp, by simp [operandTypes, arithmetic, comparison, logic], by simp, by simp⟩

end Typing

end BrilKit
