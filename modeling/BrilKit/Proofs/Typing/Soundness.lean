import BrilKit.Proofs.Run.Core
import BrilKit.Proofs.Typing.Facts
import BrilKit.Typing.Check

/-!
# Soundness of type checking

Each operation demands types of its operands and its result, and a copy demands that its two
variables have one type. The inference finds the types that the demands fix, and no others.
-/

namespace BrilKit

open List Outcome Table

namespace Typing

def datumType : Datum → Option Ty
  | .int _ => some .int
  | .bool _ => some .bool
  | _ => none

/-- The types of the operands and of the result of an operation. -/
def signature : String → Option (Ty × Ty)
  | "add" | "mul" | "sub" | "div" => some (.int, .int)
  | "eq" | "lt" | "gt" | "le" | "ge" => some (.int, .bool)
  | "not" | "and" | "or" => some (.bool, .bool)
  | _ => none

/-- An instruction demands a type of a variable. -/
inductive Demands (i : Instr) : String → Ty → Prop where
  | const {v : Datum} {t : Ty} {d : String} (op : i.op = some "const") (value : i.value = some v)
    (type : datumType v = some t) (dest : i.dest = some d) : Demands i d t
  | operand {name x : String} {t u : Ty} (op : i.op = some name)
    (types : signature name = some (t, u)) (use : x ∈ i.uses) : Demands i x t
  | result {name d : String} {t u : Ty} (op : i.op = some name)
    (types : signature name = some (t, u)) (dest : i.dest = some d) : Demands i d u
  | branch {c : String} (op : i.op = some "br") (use : i.uses.head? = some c) : Demands i c .bool

/-- The operations of a body fix the type of a variable. -/
inductive Fixes (is : List Instr) : String → Ty → Prop where
  | demand {i : Instr} {x : String} {t : Ty} (mem : i ∈ is) (demand : Demands i x t) : Fixes is x t
  | copy {i : Instr} {d s : String} {t : Ty} (mem : i ∈ is) (copy : Copies i d s)
    (source : Fixes is s t) : Fixes is d t

/-- An item of a program of constants, operations on numbers and truth values, copies, jumps and
output. -/
inductive CoreItem (i : Instr) : Prop where
  | label (op : i.op = none) (dest : i.dest = none)
  | const {v : Datum} {t : Ty} (op : i.op = some "const") (value : i.value = some v)
    (type : datumType v = some t)
  | operation {name : String} {t u : Ty} (op : i.op = some name)
    (types : signature name = some (t, u))
  | copy (op : i.op = some "id")
  | effect {name : String} (op : i.op = some name) (effect : name ∈ CoreOp.effects)
    (dest : i.dest = none)

/-- The types of variables meet the demands of an instruction and its annotation. -/
structure WellTyped (Γ : String → Ty) (i : Instr) : Prop where
  demands : ∀ x t, Demands i x t → Γ x = t
  copies : ∀ d s, Copies i d s → Γ d = Γ s
  written : ∀ d t, i.dest = some d → i.type = some t → Γ d = t

variable {ctx ctx' ctx'' : Context} {position : Nat} {i j : Instr} {is js : List Instr}
  {x y op t : String} {ty : Ty}

lemma signature_eq : signature op = (operandTypes op).map fun e => (.name e.1, .name e.2) := by
  unfold signature
  split <;> simp_all [operandTypes, arithmetic, comparison, logic]

lemma datumType_eq {v : Datum} (h : datumType v = some ty) : ty = .name (constType v) := by
  cases v with
  | int n =>
    cases h
    rfl
  | bool b =>
    cases h
    rfl
  | _ => cases h

lemma stated_of_signature {a b : Ty} (hop : i.op = some op) (types : signature op = some (a, b)) :
    ∃ t u, a = .name t ∧ b = .name u ∧ stated i = i.uses.map (·, t) ++ i.dest.toList.map (·, u) := by
  have ne : op ≠ "const" ∧ op ≠ "br" := by constructor <;> rintro rfl <;> cases types
  rw [signature_eq] at types
  obtain ⟨e, he, h⟩ := Option.map_eq_some_iff.mp types
  cases h
  exact ⟨e.1, e.2, rfl, rfl, by simp [stated, hop, ne, he]⟩

lemma Demands.stated (h : Demands i x ty) : ∃ t, ty = .name t ∧ (x, t) ∈ stated i := by
  cases h with
  | const op value type dest => exact ⟨_, datumType_eq type, by simp [Typing.stated, op, value, dest]⟩
  | operand op types use =>
    obtain ⟨t, u, rfl, rfl, e⟩ := stated_of_signature op types
    exact ⟨t, rfl, by simp [e, use]⟩
  | result op types dest =>
    obtain ⟨t, u, rfl, rfl, e⟩ := stated_of_signature op types
    exact ⟨u, rfl, by simp [e, dest]⟩
  | branch op use => exact ⟨"bool", rfl, by simp [Typing.stated, op, use]⟩

lemma CoreItem.demands (core : CoreItem i) (h : (x, t) ∈ stated i) : Demands i x (.name t) := by
  cases core with
  | label op => simp [stated, op] at h
  | const op value type =>
    cases hd : i.dest with
    | none => simp [stated, op, hd] at h
    | some d =>
      obtain ⟨rfl, rfl⟩ : x = d ∧ t = _ := by simpa [stated, op, value, hd] using h
      exact .const op value (datumType_eq type ▸ type) hd
  | operation op types =>
    obtain ⟨a, b, rfl, rfl, e⟩ := stated_of_signature op types
    rw [e, mem_append] at h
    obtain h | h := h
    · obtain ⟨_, use, same⟩ := mem_map.mp h
      cases same
      exact .operand op types use
    · obtain ⟨_, dest, same⟩ := mem_map.mp h
      cases same
      exact .result op types (Option.mem_toList.mp dest)
  | copy op => simp [stated, op, operandTypes, arithmetic, comparison, logic] at h
  | effect op effect =>
    simp only [CoreOp.effects, mem_cons, not_mem_nil, or_false] at effect
    obtain rfl | rfl | rfl | rfl | rfl := effect
    case inr.inr.inr.inl =>
      obtain ⟨use, rfl⟩ : i.uses.head? = some x ∧ "bool" = t := by simpa [stated, op] using h
      exact .branch op use
    all_goals simp [stated, op, operandTypes, arithmetic, comparison, logic] at h

lemma fixes_iff (core : ∀ i ∈ is, CoreItem i) :
    Fixes is x ty ↔ ∃ t, ty = .name t ∧ Fact is x t := by
  constructor
  · intro h
    induction h with
    | demand mem demand =>
      obtain ⟨t, e, h⟩ := demand.stated
      exact ⟨t, e, .stated mem h⟩
    | copy mem copy _ ih =>
      obtain ⟨t, e, h⟩ := ih
      exact ⟨t, e, .copied mem copy h⟩
  · rintro ⟨t, rfl, h⟩
    induction h with
    | stated mem fact => exact .demand mem ((core _ mem).demands fact)
    | copied mem copy _ ih => exact .copy mem copy ih

lemma CoreItem.typed_eq (core : CoreItem i) : typed ctx i = annotate ctx i := by
  unfold typed
  split
  · next idle =>
    have dest : i.dest = none := by
      cases core with
      | label _ dest => exact dest
      | effect _ _ dest => exact dest
      | const op => simp [untouchedBy, op, untouched] at idle
      | copy op => simp [untouchedBy, op, untouched] at idle
      | @operation name _ _ op types =>
        have mem : name ∈ untouched := by simpa [untouchedBy, op] using idle
        simp only [untouched, mem_cons, not_mem_nil, or_false] at mem
        obtain rfl | rfl | rfl | rfl := mem <;> cases types
    simp [annotate, dest]
  · rfl

/-- The inference ends with the types that the operations fix, written into the body. -/
lemma inferBody_fixes (core : ∀ i ∈ is, CoreItem i) (h : inferBody is = .ok js) :
    ∃ Γ : Context, (∀ x ty, Fixes is x ty ↔ ∃ t, ty = .name t ∧ Γ.get? x = some t) ∧
      js = is.map (annotate Γ) := by
  obtain ⟨Γ, facts, rfl⟩ := inferBody_spec h
  refine ⟨Γ, fun x ty => ?_, map_congr_left fun i hi => (core i hi).typed_eq⟩
  simp only [fixes_iff core, facts]

section Check

variable {types : Table String Ty} {d : String} {ty : Ty}

lemma get?_assignedTypes (h : (assignedTypes js).get? d = some ty) :
    ∃ j ∈ js, j.dest = some d ∧ j.type = some ty := by
  unfold assignedTypes at h
  induction js using List.reverseRecOn with
  | nil => simp at h
  | append_singleton js j ih =>
    rw [foldl_append, foldl_cons, foldl_nil] at h
    split at h
    · next d' ty' _ hd hty =>
      rw [get?_put] at h
      split at h
      · next e =>
        cases h
        exact ⟨j, by simp, e ▸ hd, hty⟩
      · obtain ⟨k, hk, e⟩ := ih h
        exact ⟨k, by simp [hk], e⟩
    · obtain ⟨k, hk, e⟩ := ih h
      exact ⟨k, by simp [hk], e⟩

lemma checkInstr_written (hd : i.dest = some d) (hty : i.type = some ty) (ho : i.op ≠ none)
    (h : checkInstr types i = .ok ()) : ∃ u, types.get? d = some u ∧ ty.same u = true := by
  obtain ⟨op, hop⟩ := Option.ne_none_iff_exists'.mp ho
  have h : checkWritten types i = .ok () := by
    unfold checkInstr at h
    rw [hop] at h
    dsimp only at h
    split at h
    · obtain ⟨_, -, h⟩ := of_bind h
      obtain ⟨_, h, -⟩ := of_bind h
      exact h
    · obtain ⟨_, h, -⟩ := of_bind h
      exact h
  unfold checkWritten at h
  rw [hd, hty] at h
  obtain ⟨u, hu, h⟩ := of_bind h
  refine ⟨u, fetch_eq_ok.mp hu, ?_⟩
  by_contra hs
  simp [Outcome.guard, hs] at h

lemma same_name {a b : String} (h : (Ty.name a).same (.name b) = true) : a = b := by
  simpa [Ty.same, Ty.toDatum, Datum.same] using h

lemma dest_annotate : (annotate ctx i).dest = i.dest := by
  unfold annotate
  split <;> rfl

lemma type_annotate_some (hd : (annotate ctx i).dest = some d) (h : ctx.get? d = some t) :
    (annotate ctx i).type = some (.name t) := by
  rw [dest_annotate] at hd
  simp [annotate, hd, h]

lemma annotate_eq_of_none (hd : (annotate ctx i).dest = some d) (h : ctx.get? d = none) :
    annotate ctx i = i := by
  rw [dest_annotate] at hd
  simp [annotate, hd, h]

end Check

/-- A body of core items whose annotations are core types. -/
structure CoreBody (is : List Instr) : Prop where
  items : ∀ i ∈ is, CoreItem i
  types : ∀ i ∈ is, ∀ t, i.type = some t → t = .int ∨ t = .bool

def Declares (f : Func) (x : String) (t : Ty) : Prop :=
  ∃ p ∈ f.params, p.name = some x ∧ p.type = some t

/-- An assignment to a variable is annotated with a type. -/
def Writes (is : List Instr) (x : String) (t : Ty) : Prop :=
  ∃ i ∈ is, i.dest = some x ∧ i.type = some t

/-- The operations, an annotation or a declaration give a variable a type. -/
def Gives (f : Func) (x : String) (t : Ty) : Prop :=
  Fixes (f.instrs.getD []) x t ∨ Writes (f.instrs.getD []) x t ∨ Declares f x t

/-- In a checked body no variable has two types by its operations and annotations. -/
lemma given_unique {typed : List Instr} (core : CoreBody is) (hi : inferBody is = .ok typed)
    (hc : checkBody is typed = .ok ()) {x : String} {t u : Ty} (ht : Fixes is x t ∨ Writes is x t)
    (hu : Fixes is x u ∨ Writes is x u) : t = u := by
  obtain ⟨Γ, exact, rfl⟩ := inferBody_fixes core.items hi
  -- An annotation is the type that was inferred, and without one that of the last annotation.
  have checked : ∀ {t}, Writes is x t → ∃ a, t = .name a ∧
      (assignedTypes (is.map (annotate Γ))).get? x = some (.name a) ∧
      ∀ b, Γ.get? x = some b → b = a := by
    rintro t ⟨i, hi, hd, ht⟩
    have ho : i.op ≠ none := by
      intro ho
      cases core.items i hi with
      | label _ dest => simp [hd] at dest
      | const op => simp [ho] at op
      | operation op => simp [ho] at op
      | copy op => simp [ho] at op
      | effect op => simp [ho] at op
    obtain ⟨u, hu, same⟩ := checkInstr_written hd ht ho (forM_eq_ok.mp hc i hi)
    obtain ⟨j, hj, hjd, hju⟩ := get?_assignedTypes hu
    obtain ⟨k, hk, rfl⟩ := mem_map.mp hj
    obtain ⟨c, rfl⟩ : ∃ c, t = .name c := by
      obtain rfl | rfl := core.types i hi t ht <;> exact ⟨_, rfl⟩
    cases hb : Γ.get? x with
    | some b =>
      obtain rfl : .name b = u := by simpa using (type_annotate_some hjd hb).symm.trans hju
      obtain rfl := same_name same
      exact ⟨c, rfl, hu, by simp⟩
    | none =>
      rw [annotate_eq_of_none hjd hb] at hju
      obtain ⟨a, rfl⟩ : ∃ a, u = .name a := by
        obtain rfl | rfl := core.types k hk u hju <;> exact ⟨_, rfl⟩
      obtain rfl := same_name same
      exact ⟨c, rfl, hu, by simp⟩
  have known : ∀ {t}, Fixes is x t → ∃ a, t = .name a ∧ Γ.get? x = some a := fun h =>
    (exact x _).mp h
  obtain ht | ht := ht
  · obtain ⟨a, rfl, ha⟩ := known ht
    obtain hu | hu := hu
    · obtain ⟨b, rfl, hb⟩ := known hu
      cases ha.symm.trans hb
      rfl
    · obtain ⟨b, rfl, -, hb⟩ := checked hu
      rw [hb a ha]
  · obtain ⟨a, rfl, ha, fits⟩ := checked ht
    obtain hu | hu := hu
    · obtain ⟨b, rfl, hb⟩ := known hu
      rw [fits b hb]
    · obtain ⟨b, rfl, hb, -⟩ := checked hu
      cases ha.symm.trans hb
      rfl

lemma check_body {p typed : Program} {f : Func} (hi : infer p = .ok typed)
    (hc : check p typed = .ok ()) (hf : f ∈ p.functions.getD []) :
    ∃ js, inferBody (f.instrs.getD []) = .ok js ∧ checkBody (f.instrs.getD []) js = .ok () := by
  obtain ⟨fs, hfs, hc⟩ := of_bind hc
  obtain ⟨fs', hfs', hi⟩ := of_bind hi
  obtain ⟨gs', hgs', hi⟩ := of_bind hi
  cases hi
  cases hfs.symm.trans hfs'
  rw [Program.funcs, ofOption_eq_ok] at hfs
  rw [hfs] at hf
  obtain ⟨g, hg, h⟩ := exists_zip (mapM_eq_ok.mp hgs') hf
  obtain ⟨is, his, h⟩ := of_bind h
  obtain ⟨js, hjs, h⟩ := of_bind h
  cases h
  obtain ⟨is', his', hc⟩ := of_bind (forM_eq_ok.mp hc _ hg)
  obtain ⟨js', hjs', hc⟩ := of_bind hc
  cases his.symm.trans his'
  cases hjs'
  rw [Func.body, ofOption_eq_ok] at his
  rw [his]
  exact ⟨js, hjs, hc⟩

/-- Type checking is sound for what it looks at. If the declared types of the parameters are the only
ones they are given, and a copy gives its result the types of its source where no operation fixes
that source, then the variables of each checked function can be typed. -/
theorem check_sound {p typed : Program} {f : Func} (hi : infer p = .ok typed)
    (hc : check p typed = .ok ()) (hf : f ∈ p.functions.getD []) (core : CoreBody (f.instrs.getD []))
    (params : ∀ x t, Declares f x t → ∀ u, Gives f x u → u = t)
    (copies : ∀ i ∈ f.instrs.getD [], ∀ d s, Copies i d s → (∀ t, ¬ Fixes (f.instrs.getD []) s t) →
      ∀ t, Gives f s t ↔ Gives f d t) :
    ∃ Γ : String → Ty, (∀ x t, Declares f x t → Γ x = t) ∧
      ∀ i ∈ f.instrs.getD [], WellTyped Γ i := by
  obtain ⟨js, hinfer, hcheck⟩ := check_body hi hc hf
  have unique : ∀ x t u, Gives f x t → Gives f x u → t = u := by
    intro x t u ht hu
    by_cases hp : ∃ w, Declares f x w
    · obtain ⟨w, hw⟩ := hp
      rw [params x w hw t ht, params x w hw u hu]
    · have given : ∀ {t}, Gives f x t → Fixes (f.instrs.getD []) x t ∨ Writes (f.instrs.getD []) x t :=
        fun h => by
          obtain h | h | h := h
          · exact .inl h
          · exact .inr h
          · exact absurd ⟨_, h⟩ hp
      exact given_unique core hinfer hcheck (given ht) (given hu)
  -- A variable without any given type may have whichever, as long as copies agree.
  have typed : ∀ x, ∃ t, (∀ u, Gives f x u → t = u) ∧ ((∀ u, ¬ Gives f x u) → t = .int) := by
    intro x
    by_cases hx : ∃ t, Gives f x t
    · obtain ⟨t, ht⟩ := hx
      exact ⟨t, fun u hu => unique x t u ht hu, fun none => absurd ht (none t)⟩
    · exact ⟨.int, fun u hu => absurd ⟨u, hu⟩ hx, fun _ => rfl⟩
  choose Γ given free using typed
  refine ⟨Γ, fun x t ht => given x t (.inr (.inr ht)), fun i hi => ⟨?_, ?_, ?_⟩⟩
  · exact fun x t dm => given x t (.inl (.demand hi dm))
  · intro d s cp
    by_cases hs : ∃ t, Fixes (f.instrs.getD []) s t
    · obtain ⟨t, ht⟩ := hs
      rw [given s t (.inl ht), given d t (.inl (.copy hi cp ht))]
    · have agree := copies i hi d s cp fun t ht => hs ⟨t, ht⟩
      by_cases hg : ∃ t, Gives f s t
      · obtain ⟨t, ht⟩ := hg
        rw [given s t ht, given d t ((agree t).mp ht)]
      · rw [free s fun t ht => hg ⟨t, ht⟩, free d fun t ht => hg ⟨t, (agree t).mpr ht⟩]
  · exact fun d t hd ht => given d t (.inr (.inl ⟨i, hi, hd, ht⟩))

/-- Copies a parameter that no operation fixes, and a variable before it is assigned. -/
def copying : Func where
  name := some "main"
  args := some [Sample.wholeParam "n", { name := some "flag", type := some .bool }]
  instrs := some [
    Sample.compute .bool "id" "b" ["flag"],
    { op := some "id", dest := some "y", args := some ["z"] },
    { op := some "add", dest := some "z", args := some ["n", "n"] },
    Sample.effect "print" ["y"]]

lemma fixes_copying {x : String} {t : Ty} (h : Fixes (copying.instrs.getD []) x t) :
    (x = "n" ∨ x = "z" ∨ x = "y") ∧ t = .int := by
  induction h with
  | demand hi dm =>
    obtain ⟨u, rfl, h⟩ := dm.stated
    simp only [copying, Option.getD_some, mem_cons, not_mem_nil, or_false] at hi
    obtain rfl | rfl | rfl | rfl := hi <;>
      simp [stated, operandTypes, arithmetic, comparison, logic, Instr.uses] at h
    obtain ⟨rfl, rfl⟩ | ⟨rfl, rfl⟩ := h <;> simp
  | copy hi cp _ ih =>
    simp only [copying, Option.getD_some, mem_cons, not_mem_nil, or_false] at hi
    obtain rfl | rfl | rfl | rfl := hi
    · cases cp.source
      simp at ih
    · cases cp.dest
      exact ⟨by simp, ih.2⟩
    · simpa using cp.op
    · simpa using cp.op

lemma gives_copying {x : String} {t : Ty} (h : Gives copying x t) :
    (x = "n" ∨ x = "z" ∨ x = "y") ∧ t = .int ∨ (x = "flag" ∨ x = "b") ∧ t = .bool := by
  obtain h | ⟨i, hi, hd, ht⟩ | ⟨p, hp, hx, ht⟩ := h
  · exact .inl (fixes_copying h)
  · simp only [copying, Option.getD_some, mem_cons, not_mem_nil, or_false] at hi
    obtain rfl | rfl | rfl | rfl := hi
    · cases hd
      cases ht
      exact .inr ⟨.inr rfl, rfl⟩
    · cases ht
    · cases ht
    · cases ht
  · simp only [copying, Func.params, Option.getD_some, mem_cons, not_mem_nil, or_false] at hp
    obtain rfl | rfl := hp
    · cases hx
      cases ht
      exact .inl ⟨.inl rfl, rfl⟩
    · cases hx
      cases ht
      exact .inr ⟨.inl rfl, rfl⟩

theorem check_sound_copying : ∃ Γ : String → Ty, (∀ x t, Declares copying x t → Γ x = t) ∧
    ∀ i ∈ copying.instrs.getD [], WellTyped Γ i := by
  have hi : infer { functions := some [copying] } = .ok { functions := some [{ copying with
      instrs := some [
        Sample.compute .bool "id" "b" ["flag"],
        Sample.compute .int "id" "y" ["z"],
        Sample.compute .int "add" "z" ["n", "n"],
        Sample.effect "print" ["y"]] }] } := by
    decide +kernel
  have declares : ∀ x t, Declares copying x t → x = "n" ∧ t = .int ∨ x = "flag" ∧ t = .bool := by
    rintro x t ⟨p, hp, hx, ht⟩
    simp only [copying, Func.params, Option.getD_some, List.mem_cons, List.not_mem_nil,
      or_false] at hp
    obtain rfl | rfl := hp <;> simp_all
  refine check_sound (f := copying) hi (by decide +kernel) (by simp) ⟨?_, ?_⟩ ?_ ?_
  · simp only [copying, Option.getD_some, List.forall_mem_cons]
    exact ⟨.copy rfl, .copy rfl, .operation rfl rfl, .effect rfl (by decide) rfl, by simp⟩
  · simp [copying]
  · intro x t hx u hu
    obtain ⟨rfl, rfl⟩ | ⟨rfl, rfl⟩ := declares x t hx
    · simpa using gives_copying hu
    · simpa using gives_copying hu
  · intro i hi d s cp unfixed t
    simp only [copying, Option.getD_some, List.mem_cons, List.not_mem_nil, or_false] at hi
    obtain rfl | rfl | rfl | rfl := hi
    · cases cp.dest
      cases cp.source
      constructor
      · intro h
        obtain rfl : t = .bool := by simpa using gives_copying h
        exact .inr (.inl ⟨_, List.mem_cons_self, rfl, rfl⟩)
      · intro h
        obtain rfl : t = .bool := by simpa using gives_copying h
        exact .inr (.inr ⟨{ name := some "flag", type := some .bool }, by simp [copying, Func.params],
          rfl, rfl⟩)
    · cases cp.source
      refine absurd (.demand (i := { op := some "add", dest := some "z", args := some ["n", "n"] })
        (by simp [copying]) (.result rfl rfl rfl)) (unfixed .int)
    · simpa using cp.op
    · simpa using cp.op

def boolAdder : Func where
  name := some "main"
  args := some [{ name := some "a", type := some .bool }]
  instrs := some [
    Sample.compute .int "add" "b" ["a", "a"],
    Sample.effect "print" ["b"]]

/-- The declared types of parameters are not checked: a function that adds a truth value to itself
passes, and its variables cannot be typed. -/
theorem check_boolAdder : (∃ typed, infer { functions := some [boolAdder] } = .ok typed ∧
      check { functions := some [boolAdder] } typed = .ok ()) ∧ CoreBody (boolAdder.instrs.getD []) ∧
    ¬ ∃ Γ : String → Ty, (∀ x t, Declares boolAdder x t → Γ x = t) ∧
      ∀ i ∈ boolAdder.instrs.getD [], WellTyped Γ i := by
  have hi : infer { functions := some [boolAdder] } = .ok { functions := some [boolAdder] } := by
    decide +kernel
  refine ⟨⟨_, hi, by decide +kernel⟩, ⟨?_, by simp [boolAdder]⟩, ?_⟩
  · simp only [boolAdder, Option.getD_some, List.forall_mem_cons]
    exact ⟨.operation rfl rfl, .effect rfl (by decide) rfl, by simp⟩
  · rintro ⟨Γ, declared, typed⟩
    have bool := declared "a" .bool ⟨_, List.mem_cons_self, rfl, rfl⟩
    have int := (typed _ List.mem_cons_self).demands "a" .int (.operand rfl rfl List.mem_cons_self)
    simpa using bool.symm.trans int

end Typing

end BrilKit
