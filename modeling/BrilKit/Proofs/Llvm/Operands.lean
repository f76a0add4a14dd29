import BrilKit.Llvm.Emit
import BrilKit.Proofs.Data.Table
import BrilKit.Sample.Programs
import Mathlib

/-!
# The variables that emitted code reads

A constant and a copy produce no code; what reads them reads what they stand for, as far as that is
known where they stand in the text.
-/

namespace BrilKit

open List Outcome Table

namespace Llvm

def produces (op : String) : Bool :=
  ["call", "not", "phi", "alloc", "load", "ptradd", "getmbr", "isnull"].contains op
    || (binary op).isSome

/-- The instruction gives a variable the result of an operation that has a counterpart. -/
def Produces (i : Instr) (x : String) : Prop :=
  i.dest = some x ∧ ∃ op, i.op = some op ∧ produces op = true

/-- A variable that is not a parameter is copied where no instruction in front assigns it. -/
def Premature (params : List String) (is : List Instr) (x : String) : Prop :=
  x ∉ params ∧ ∃ done i rest, is = done ++ i :: rest ∧ i.op = some "id" ∧ i.dest.isSome ∧
    i.uses[0]? = some x ∧ ∀ j ∈ done, j.dest ≠ some x

/-- A variable is assigned by an operation that has no counterpart and is no copy or constant. -/
def Unwritten (is : List Instr) (x : String) : Prop :=
  ∃ i ∈ is, i.dest = some x ∧ i.value = none ∧
    ∀ op, i.op = some op → op ≠ "id" ∧ produces op = false

section Codes

variable {G H : String → Prop} {code other : Code} {parts : List Code} {s x y : String}

def Reads (G : String → Prop) (code : Code) : Prop := ∀ y, Piece.operand y ∈ code → G y

lemma Reads.mono (h : Reads G code) (wider : ∀ y, G y → H y) : Reads H code :=
  fun y hy => wider y (h y hy)

@[simp] lemma reads_nil : Reads G [] := nofun

@[simp] lemma reads_text : Reads G (.text s :: code) ↔ Reads G code := by simp [Reads]

@[simp] lemma reads_block : Reads G (.block s :: code) ↔ Reads G code := by simp [Reads]

@[simp] lemma reads_result : Reads G (.result x :: code) ↔ Reads G code := by simp [Reads]

@[simp] lemma reads_operand : Reads G (.operand x :: code) ↔ G x ∧ Reads G code := by
  simp [Reads, or_imp, forall_and]

@[simp] lemma reads_append : Reads G (code ++ other) ↔ Reads G code ∧ Reads G other := by
  simp [Reads, or_imp, forall_and]

@[simp] lemma reads_line : Reads G (Code.line code) ↔ Reads G code := by simp [Code.line]

@[simp] lemma reads_assign : Reads G (Code.assign x code) ↔ Reads G code := by simp [Code.assign]

@[simp] lemma reads_joinWith : Reads G (Code.joinWith s parts) ↔ ∀ part ∈ parts, Reads G part := by
  rw [Code.joinWith]
  induction parts with
  | nil => simp
  | cons part parts ih =>
    cases parts with
    | nil => simp
    | cons next parts =>
      rw [intercalate_cons_cons, reads_append, ih]
      simp

@[simp] lemma result_mem_assign :
    Piece.result y ∈ Code.assign x code ↔ y = x ∨ .result y ∈ code := by
  simp [Code.assign, Code.line]

end Codes

section Operands

variable {G H : String → Prop} {c : Context} {code : Code} {typed : Bool} {x : String}
  {xs : List String}

/-- What the context knows leads to variables of these. -/
structure Good (G : String → Prop) (c : Context) : Prop where
  copies : ∀ x y, c.copies.get? x = some y → G y
  typed : ∀ x t, c.types.get? x = some t → c.constants.get? x = none →
    c.copies.get? x = none → G x

lemma Good.mono (h : Good G c) (wider : ∀ y, G y → H y) : Good H c :=
  ⟨fun x y hy => wider y (h.copies x y hy), fun x t ht hc hx => wider x (h.typed x t ht hc hx)⟩

lemma Good.piece {t : Ty} (h : Good G c) (ht : c.types.get? x = some t) :
    Reads G [c.piece t x] := by
  unfold Context.piece
  cases constant : c.constants.get? x with
  | some v => simp
  | none =>
    cases copy : c.copies.get? x with
    | none => simpa [Table.getD, copy] using h.typed x t ht constant copy
    | some y => simpa [Table.getD, copy] using h.copies x y copy

lemma Good.operand (h : Good G c) (ho : c.operand typed x = .ok code) : Reads G code := by
  obtain ⟨t, ht, ho⟩ := of_bind ho
  have known := h.piece (fetch_eq_ok.mp ht)
  split at ho
  · obtain ⟨s, _, ho⟩ := of_bind ho
    cases ho
    simpa using known
  · cases ho
    exact known

lemma Good.operands (h : Good G c) (ho : c.operands typed xs = .ok code) : Reads G code := by
  obtain ⟨parts, hp, ho⟩ := of_bind ho
  cases ho
  rw [reads_joinWith]
  intro part mem
  obtain ⟨x, _, hx⟩ := exists_of_mem_right (mapM_eq_ok.mp hp) mem
  exact h.operand hx

lemma Good.incoming {i : Instr} {labels : List String} {parts : List Code} (h : Good G c)
    (ho : incoming c i xs labels = .ok parts) : ∀ part ∈ parts, Reads G part := by
  induction xs generalizing labels parts with
  | nil =>
    cases ho
    exact nofun
  | cons x xs ih =>
    obtain ⟨_, _, ho⟩ := of_bind ho
    split at ho
    · cases ho
    · obtain ⟨code, hc, ho⟩ := of_bind ho
      obtain ⟨parts, hp, ho⟩ := of_bind ho
      cases ho
      rw [forall_mem_cons]
      exact ⟨by simpa using h.operand hc, ih hp⟩

lemma Good.addNew (h : Good G c) (t : Ty) : Good (fun y => G y ∨ y = c.newName) (c.addNew t) := by
  refine ⟨fun x y hy => .inl (h.copies x y hy), fun x t' ht hc hx => ?_⟩
  simp only [Context.addNew, get?_put] at ht
  split at ht
  · next same => exact .inr same
  · exact .inl (h.typed x t' ht hc hx)

end Operands

section Emission

variable {G : String → Prop} {l : Layout} {c c' : Context} {code other : Code} {i : Instr}
  {op d : String}

/-- The code reads what is known or a result of its own, and the context behind it knows these. -/
structure Sound (G : String → Prop) (c : Context) (code : Code) : Prop where
  reads : Reads (fun y => G y ∨ .result y ∈ code) code
  good : Good (fun y => G y ∨ .result y ∈ code) c

lemma Good.sound (h : Good G c) (reads : Reads G code) : Sound G c code :=
  ⟨reads.mono fun _ => .inl, h.mono fun _ => .inl⟩

lemma Good.assign (h : Good G c) (reads : Reads G code) :
    Sound G c (Code.assign d code) ∧ .result d ∈ Code.assign d code :=
  ⟨h.sound (by simpa using reads), by simp⟩

lemma Sound.withNew {x : String} (h : Sound (fun y => G y ∨ y = x) c other)
    (reads : Reads (fun y => G y ∨ y = x) code) : Sound G c (Code.assign x code ++ other) := by
  have wider : ∀ y, (G y ∨ y = x) ∨ .result y ∈ other →
      G y ∨ .result y ∈ Code.assign x code ++ other := by
    rintro y ((hy | rfl) | hy) <;> simp [*]
  refine ⟨?_, h.good.mono wider⟩
  rw [reads_append, reads_assign]
  exact ⟨reads.mono fun y hy => wider y (.inl hy), h.reads.mono wider⟩

lemma Good.emitAlloc (h : Good G c) (he : emitAlloc l c i d = .ok (c', code)) :
    Sound G c' code ∧ .result d ∈ code := by
  obtain ⟨count, hcount, he⟩ := of_bind he
  obtain ⟨_, _, he⟩ := of_bind he
  obtain ⟨_, _, he⟩ := of_bind he
  obtain ⟨size, _, he⟩ := of_bind he
  obtain ⟨bytes, hbytes, he⟩ := of_bind he
  obtain ⟨_, _, he⟩ := of_bind he
  obtain ⟨t, _, he⟩ := of_bind he
  cases he
  have first := h.addNew .int
  have second := first.addNew (.other .null)
  refine ⟨?_, by simp⟩
  rw [append_assoc]
  refine Sound.withNew (Sound.withNew (second.sound ?_) ?_) ?_
  · simp
  · simpa using second.operand hbytes
  · simpa using first.operands hcount

lemma Good.emitIsNull (h : Good G c) (he : emitIsNull c i d = .ok (c', code)) :
    Sound G c' code ∧ .result d ∈ code := by
  obtain ⟨base, hbase, he⟩ := of_bind he
  cases he
  have first := h.addNew .int
  refine ⟨Sound.withNew (first.sound ?_) ?_, by simp⟩
  · simp
  · simpa using first.operands hbase

lemma Good.emitMember (h : Good G c) (he : emitMember l c i d = .ok code) :
    Sound G c code ∧ .result d ∈ code := by
  obtain ⟨_, _, he⟩ := of_bind he
  obtain ⟨_, _, he⟩ := of_bind he
  obtain ⟨_, _, he⟩ := of_bind he
  obtain ⟨_, _, he⟩ := of_bind he
  obtain ⟨base, hbase, he⟩ := of_bind he
  obtain ⟨_, _, he⟩ := of_bind he
  cases he
  exact h.assign (by simpa using h.operands hbase)

/-- An operation with a result reads what is known, and gives the result if it has a counterpart. -/
lemma Good.emitValue (h : Good G c) (he : emitValue l c i op d = .ok (c', code)) :
    Sound G c' code ∧ (produces op = true → .result d ∈ code) := by
  have given {code : Code} (h : Sound G c' code ∧ .result d ∈ code) :
      Sound G c' code ∧ (produces op = true → .result d ∈ code) := ⟨h.1, fun _ => h.2⟩
  unfold Llvm.emitValue at he
  split at he
  · obtain ⟨_, _, he⟩ := of_bind he
    obtain ⟨_, _, he⟩ := of_bind he
    obtain ⟨_, _, he⟩ := of_bind he
    obtain ⟨args, hargs, he⟩ := of_bind he
    cases he
    exact given (h.assign (by simpa using h.operands hargs))
  · obtain ⟨args, hargs, he⟩ := of_bind he
    cases he
    exact given (h.assign (by simpa using h.operands hargs))
  · obtain ⟨_, _, he⟩ := of_bind he
    obtain ⟨_, _, he⟩ := of_bind he
    obtain ⟨_, _, he⟩ := of_bind he
    obtain ⟨pairs, hpairs, he⟩ := of_bind he
    cases he
    exact given (h.assign (by simpa using h.incoming hpairs))
  · exact given (h.emitAlloc he)
  · obtain ⟨_, _, he⟩ := of_bind he
    obtain ⟨_, _, he⟩ := of_bind he
    obtain ⟨args, hargs, he⟩ := of_bind he
    cases he
    exact given (h.assign (by simpa using h.operands hargs))
  · obtain ⟨_, _, he⟩ := of_bind he
    obtain ⟨_, _, he⟩ := of_bind he
    obtain ⟨_, _, he⟩ := of_bind he
    obtain ⟨args, hargs, he⟩ := of_bind he
    cases he
    exact given (h.assign (by simpa using h.operands hargs))
  · obtain ⟨member, hmember, he⟩ := of_bind he
    cases he
    exact given (h.emitMember hmember)
  · exact given (h.emitIsNull he)
  · split at he
    · obtain ⟨_, _, he⟩ := of_bind he
      obtain ⟨_, _, he⟩ := of_bind he
      obtain ⟨_, _, he⟩ := of_bind he
      obtain ⟨args, hargs, he⟩ := of_bind he
      cases he
      exact given (h.assign (by simpa using h.operands hargs))
    · next none =>
      cases he
      refine ⟨h.sound reads_nil, fun produced => ?_⟩
      simp_all [produces]

lemma Good.emitPrint {x : String} (h : Good G c) (he : emitPrint c x = .ok code) :
    Reads G code := by
  obtain ⟨_, _, he⟩ := of_bind he
  obtain ⟨arg, harg, he⟩ := of_bind he
  cases he
  simpa using h.operand harg

lemma Good.emitEffect (h : Good G c) (he : emitEffect c i op = .ok (c', code)) :
    Sound G c' code := by
  unfold Llvm.emitEffect at he
  split at he
  · obtain ⟨cond, hcond, he⟩ := of_bind he
    obtain ⟨_, _, he⟩ := of_bind he
    obtain ⟨_, _, he⟩ := of_bind he
    obtain ⟨_, _, he⟩ := of_bind he
    obtain ⟨_, _, he⟩ := of_bind he
    cases he
    exact h.sound (by simpa using h.operands hcond)
  · obtain ⟨_, _, he⟩ := of_bind he
    obtain ⟨_, _, he⟩ := of_bind he
    cases he
    exact h.sound (by simp)
  · obtain ⟨value, hvalue, he⟩ := of_bind he
    cases he
    refine h.sound ?_
    rw [reads_line, reads_text]
    split
    · simp
    · exact h.operands hvalue
  · obtain ⟨_, _, he⟩ := of_bind he
    obtain ⟨args, hargs, he⟩ := of_bind he
    cases he
    exact h.sound (by simpa using h.operands hargs)
  · obtain ⟨calls, hcalls, he⟩ := of_bind he
    cases he
    refine h.sound ?_
    rw [reads_append, reads_joinWith]
    refine ⟨fun part mem => ?_, by simp⟩
    obtain ⟨x, _, hx⟩ := exists_of_mem_right (mapM_eq_ok.mp hcalls) mem
    exact h.emitPrint hx
  · obtain ⟨base, hbase, he⟩ := of_bind he
    cases he
    have first := h.addNew (.other .null)
    refine Sound.withNew (first.sound ?_) ?_
    · simp
    · simpa using first.operands hbase
  · obtain ⟨args, hargs, he⟩ := of_bind he
    cases he
    exact h.sound (by simpa using h.operands hargs)
  · cases he
    exact h.sound reads_nil

lemma Good.emitInstr (h : Good G c) (he : emitInstr l c i = .ok (c', code)) :
    Sound G c' code ∧ ∀ x, Produces i x → .result x ∈ code := by
  unfold Llvm.emitInstr at he
  split at he
  · next op d hop hd =>
    obtain ⟨sound, given⟩ := h.emitValue he
    refine ⟨sound, ?_⟩
    rintro x ⟨hx, op', hop', produced⟩
    cases hd.symm.trans hx
    cases hop.symm.trans hop'
    exact given produced
  · next hd =>
    refine ⟨h.emitEffect he, ?_⟩
    rintro x ⟨hx, _⟩
    cases hd.symm.trans hx
  · next hop =>
    refine ⟨?_, ?_⟩
    · split at he
      · cases he
        exact h.sound (by simp)
      · cases he
    · rintro x ⟨_, op', hop', _⟩
      cases hop.symm.trans hop'

/-- A body reads what is known or its own results, among which are all that its items produce. -/
lemma Good.emitBody {is : List Instr} (h : Good G c) (he : emitBody l c is = .ok code) :
    Reads (fun y => G y ∨ .result y ∈ code) code ∧
      ∀ i ∈ is, ∀ x, Produces i x → .result x ∈ code := by
  induction is generalizing G c code with
  | nil =>
    cases he
    exact ⟨reads_nil, nofun⟩
  | cons i is ih =>
    obtain ⟨⟨c', first⟩, hfirst, he⟩ := of_bind he
    obtain ⟨rest, hrest, he⟩ := of_bind he
    cases he
    obtain ⟨sound, given⟩ := h.emitInstr hfirst
    -- the rest may also read the results of the first item
    obtain ⟨reads, results⟩ := ih sound.good hrest
    constructor
    · rw [reads_append]
      constructor
      · exact sound.reads.mono fun y => Or.imp_right (mem_append_left _)
      · refine reads.mono ?_
        rintro y ((hy | hy) | hy)
        · exact .inl hy
        · exact .inr (mem_append_left _ hy)
        · exact .inr (mem_append_right _ hy)
    · rw [forall_mem_cons]
      refine ⟨fun x hx => mem_append_left _ (given x hx), fun j hj x hx => ?_⟩
      exact mem_append_right _ (results j hj x hx)

end Emission

section Known

variable {G : String → Prop} {params : List String} {is done rest : List Instr} {c c' : Context}
  {i : Instr} {d x : String}

/-- What stands for a variable: a parameter, what an instruction produces, or one of the two
exceptions. -/
def Founded (params : List String) (is : List Instr) (x : String) : Prop :=
  x ∈ params ∨ (∃ i ∈ is, Produces i x) ∨ Premature params is x ∨ Unwritten is x

/-- What the context knows behind some instructions. -/
structure Learned (G : String → Prop) (done : List Instr) (c : Context) : Prop where
  types : ∀ x t, c.types.get? x = some t → ∃ j ∈ done, j.dest = some x
  copies : ∀ x y, c.copies.get? x = some y → G y
  assigned : ∀ j ∈ done, ∀ x, j.dest = some x → c.constants.get? x = none →
    c.copies.get? x = none → G x

lemma Learned.good (h : Learned G done c) : Good G c := by
  refine ⟨h.copies, fun x t ht hc hx => ?_⟩
  obtain ⟨j, hj, hd⟩ := h.types x t ht
  exact h.assigned j hj x hd hc hx

/-- What a context learns from an instruction that assigns a variable. -/
structure Extends (G : String → Prop) (d : String) (c c' : Context) : Prop where
  types : ∀ x t, c'.types.get? x = some t → x = d ∨ c.types.get? x = some t
  copies : ∀ x y, c'.copies.get? x = some y → c.copies.get? x = some y ∨ G y
  constants : ∀ x, c'.constants.get? x = none → c.constants.get? x = none
  copied : ∀ x, c'.copies.get? x = none → c.copies.get? x = none

lemma Learned.extend (h : Learned G done c) (e : Extends G d c c') (hd : i.dest = some d)
    (new : c'.constants.get? d = none → c'.copies.get? d = none → G d) :
    Learned G (done ++ [i]) c' := by
  refine ⟨fun x t ht => ?_, fun x y hy => (e.copies x y hy).elim (h.copies x y) id, ?_⟩
  · obtain rfl | ht := e.types x t ht
    · exact ⟨i, by simp, hd⟩
    · obtain ⟨j, hj, hx⟩ := h.types x t ht
      exact ⟨j, mem_append_left _ hj, hx⟩
  · intro j hj x hx hc hcopy
    rw [mem_append, mem_singleton] at hj
    obtain hj | rfl := hj
    · exact h.assigned j hj x hx (e.constants x hc) (e.copied x hcopy)
    · cases hd.symm.trans hx
      exact new hc hcopy

lemma extends_putType (t : Ty) : Extends G d c { c with types := c.types.put d t } where
  types x t' ht := by
    simp only [get?_put] at ht
    split at ht
    · next same => exact .inl same
    · exact .inr ht
  copies _ _ := .inl
  constants _ := id
  copied _ := id

lemma extends_putConst (v : Datum) : Extends G d c { c with constants := c.constants.put d v } where
  types _ _ := .inr
  copies _ _ := .inl
  constants x hx := by
    simp only [get?_put] at hx
    split at hx
    · cases hx
    · exact hx
  copied _ := id

lemma extends_putCopy {y : String} (hy : G y) :
    Extends G d c { c with copies := c.copies.put d y } where
  types _ _ := .inr
  copies x z hz := by
    simp only [get?_put] at hz
    split at hz
    · cases hz
      exact .inr hy
    · exact .inl hz
  constants _ := id
  copied x hx := by
    simp only [get?_put] at hx
    split at hx
    · cases hx
    · exact hx

lemma Extends.trans {c'' : Context} (h : Extends G d c c') (h' : Extends G d c' c'') :
    Extends G d c c'' where
  types x t ht := (h'.types x t ht).elim .inl (h.types x t)
  copies x y hy := (h'.copies x y hy).elim (h.copies x y) .inr
  constants x hx := h.constants x (h'.constants x hx)
  copied x hx := h.copied x (h'.copied x hx)

lemma extends_noteCopy (source : c.constants.get? x = none → G (c.copies.getD x x)) :
    Extends G d c (c.noteCopy d x) ∧
      ((c.noteCopy d x).constants.get? d = none → (c.noteCopy d x).copies.get? d ≠ none) := by
  unfold Context.noteCopy
  split
  · exact ⟨extends_putConst _, by simp⟩
  · next none => exact ⟨extends_putCopy (source none), by simp⟩

lemma Learned.source (h : Learned (Founded params is) done c) (split : is = done ++ i :: rest)
    (ho : i.op = some "id") (hd : i.dest = some d) (hx : i.uses[0]? = some x)
    (constant : c.constants.get? x = none) : Founded params is (c.copies.getD x x) := by
  cases copy : c.copies.get? x with
  | some y => simpa [Table.getD, copy] using h.copies x y copy
  | none =>
    have own : Founded params is x := by
      -- nothing is known of the source: if an instruction in front assigns it, it is no constant
      by_cases assigned : ∃ j ∈ done, j.dest = some x
      · obtain ⟨j, hj, hxj⟩ := assigned
        exact h.assigned j hj x hxj constant copy
      · by_cases param : x ∈ params
        · exact .inl param
        · refine .inr (.inr (.inl ⟨param, done, i, rest, split, ho, by simp [hd], hx, ?_⟩))
          exact fun j hj hxj => assigned ⟨j, hj, hxj⟩
    simpa [Table.getD, copy] using own

lemma Learned.noteResult (h : Learned (Founded params is) done c) (split : is = done ++ i :: rest)
    (hd : i.dest = some d) (hn : c.noteResult i d = .ok c') :
    Extends (Founded params is) d c c' ∧ (i.value = none → c'.constants.get? d = none →
      c'.copies.get? d = none → Founded params is d) := by
  have mem : i ∈ is := by simp [split]
  obtain ⟨op, hop, hn⟩ := of_bind hn
  have ho : i.op = some op := ofOption_eq_ok.mp hop
  have produced (hp : produces op = true) : Founded params is d :=
    .inr (.inl ⟨i, mem, hd, op, ho, hp⟩)
  -- a phi, a copy, and anything else
  split at hn
  · next phi =>
    obtain rfl : op = "phi" := by simpa using phi
    obtain ⟨_, _, hn⟩ := of_bind hn
    obtain ⟨_, _, hn⟩ := of_bind hn
    obtain ⟨t, _, hn⟩ := of_bind hn
    cases hn
    exact ⟨extends_putType t, fun _ _ _ => produced rfl⟩
  · obtain ⟨t, _, typed⟩ := of_bind hn
    split at typed
    · next copy =>
      obtain rfl : op = "id" := by simpa using copy
      obtain ⟨xs, hxs, typed⟩ := of_bind typed
      obtain ⟨x, hx, typed⟩ := of_bind typed
      cases typed
      have hx : i.uses[0]? = some x := by
        rw [Instr.uses, ofOption_eq_ok.mp hxs]
        exact itemAt_eq_ok.mp hx
      obtain ⟨copies, known⟩ := extends_noteCopy (G := Founded params is) (d := d)
        (c := { c with types := c.types.put d t }) (h.source split ho hd hx)
      exact ⟨(extends_putType t).trans copies, fun _ hc hcopy => absurd hcopy (known hc)⟩
    · next copy =>
      cases typed
      refine ⟨extends_putType t, fun value _ _ => ?_⟩
      cases hp : produces op with
      | true => exact produced hp
      | false =>
        refine .inr (.inr (.inr ⟨i, mem, hd, value, ?_⟩))
        intro op' ho'
        cases ho.symm.trans ho'
        exact ⟨by simpa using copy, hp⟩

lemma Learned.note (h : Learned (Founded params is) done c) (split : is = done ++ i :: rest)
    (hn : c.note i = .ok c') : Learned (Founded params is) (done ++ [i]) c' := by
  unfold Context.note at hn
  cases hd : i.dest with
  | none =>
    have same : c' = c := by
      rw [hd] at hn
      cases value : i.value with
      | none =>
        rw [value] at hn
        cases hn
        rfl
      | some v =>
        rw [value] at hn
        obtain ⟨_, _, hn⟩ := of_bind hn
        obtain ⟨_, _, hn⟩ := of_bind hn
        obtain ⟨d, hd', _⟩ := of_bind hn
        cases hd.symm.trans (ofOption_eq_ok.mp hd')
    subst same
    refine ⟨fun x t ht => ?_, h.copies, fun j hj x hx => ?_⟩
    · obtain ⟨j, hj, hx⟩ := h.types x t ht
      exact ⟨j, mem_append_left _ hj, hx⟩
    · rw [mem_append, mem_singleton] at hj
      obtain hj | rfl := hj
      · exact h.assigned j hj x hx
      · cases hd.symm.trans hx
  | some d =>
    rw [hd] at hn
    obtain ⟨c₁, first, hn⟩ := of_bind hn
    obtain ⟨result, new⟩ := h.noteResult split hd first
    cases value : i.value with
    | some v =>
      rw [value] at hn
      obtain ⟨t, _, hn⟩ := of_bind hn
      obtain ⟨d', hd', hn⟩ := of_bind hn
      cases hd.symm.trans (ofOption_eq_ok.mp hd')
      cases hn
      exact h.extend (result.trans (extends_putConst _)) hd (by simp)
    | none =>
      rw [value] at hn
      cases hn
      exact h.extend result hd (new value)

lemma Learned.notes (h : Learned (Founded params is) done c) (split : is = done ++ rest)
    (hn : rest.foldlM Context.note c = .ok c') : Learned (Founded params is) is c' := by
  induction rest generalizing done c with
  | nil =>
    rw [foldlM_nil_eq_ok] at hn
    rw [append_nil] at split
    subst split hn
    exact h
  | cons i rest ih =>
    obtain ⟨c₁, first, hn⟩ := foldlM_cons_eq_ok.mp hn
    exact ih (h.note split first) (by simp [split]) hn

lemma learned_ofBody {isMain : Bool} (hc : Context.ofBody isMain is = .ok c) :
    Learned (Founded params is) is c := by
  have start : Learned (Founded params is) [] { isMain } := by
    refine ⟨?_, ?_, nofun⟩
    · intro x t ht
      cases ht
    · intro x y hy
      cases hy
  exact start.notes rfl hc

end Known

section Programs

variable {l : Layout} {f : Func} {code : FuncCode} {p : Program} {m : Module} {text : String}

lemma operands_emitFunc (h : emitFunc l f = .ok code) : ∃ is, f.body = .ok is ∧
    ∀ x, .operand x ∈ code.body → x ∈ code.params.map Prod.snd ∨ .result x ∈ code.body ∨
      Premature (code.params.map Prod.snd) is x ∨ Unwritten is x := by
  obtain ⟨_, _, h⟩ := of_bind h
  obtain ⟨is, his, h⟩ := of_bind h
  obtain ⟨c, hc, h⟩ := of_bind h
  obtain ⟨_, _, h⟩ := of_bind h
  obtain ⟨_, _, h⟩ := of_bind h
  obtain ⟨_, _, h⟩ := of_bind h
  obtain ⟨body, hbody, h⟩ := of_bind h
  cases h
  obtain ⟨reads, results⟩ := (learned_ofBody hc).good.emitBody hbody
  refine ⟨is, his, fun x hx => ?_⟩
  obtain (param | ⟨i, hi, produced⟩ | premature | unwritten) | result := reads x hx
  · exact .inl param
  · exact .inr (.inl (results i hi x produced))
  · exact .inr (.inr (.inl premature))
  · exact .inr (.inr (.inr unwritten))
  · exact .inr (.inl result)

lemma emitModule_eq_ok : emitModule p = .ok m ↔ ∃ sources fs ss l params,
    p.funcs = .ok sources ∧ sources.mapM Ssa.Stacked.enter = .ok fs ∧ structList p = .ok ss ∧
      Layout.declareAll {} ss = .ok (l, m.structs) ∧ fs.mapM (emitFunc l) = .ok m.funcs ∧
      mainParams fs = .ok params ∧ entryText params = .ok m.entry := by
  simp only [emitModule, bind_eq_ok, pure_eq_ok]
  constructor
  · rintro ⟨sources, hsources, fs, hfs, ss, hss, ⟨l, structs⟩, hl, funcs, hfuncs, params, hparams,
      entry, hentry, rfl⟩
    exact ⟨sources, fs, ss, l, params, hsources, hfs, hss, hl, hfuncs, hparams, hentry⟩
  · rintro ⟨sources, fs, ss, l, params, hsources, hfs, hss, hl, hfuncs, hparams, hentry⟩
    exact ⟨sources, hsources, fs, hfs, ss, hss, (l, m.structs), hl, m.funcs, hfuncs, params,
      hparams, m.entry, hentry, rfl⟩

lemma emitModule_single {f' : Func} (hf : Ssa.Stacked.enter f = .ok f')
    (hp : mainParams [f'] = .ok []) (hc : emitFunc {} f' = .ok code) :
    ∃ m, emitModule { functions := some [f] } = .ok m ∧ m.funcs = [code] := by
  obtain ⟨entry, hentry⟩ : ∃ entry, entryText [] = .ok entry := ⟨_, rfl⟩
  refine ⟨{ structs := "", funcs := [code], entry }, emitModule_eq_ok.mpr ?_, rfl⟩
  refine ⟨[f], [f'], [], {}, [], rfl, ?_, rfl, rfl, ?_, hp, hentry⟩
  · exact mapM_eq_ok.mpr (.cons hf .nil)
  · exact mapM_eq_ok.mpr (.cons hc .nil)

/-- In the text for a program every variable that a function reads is a parameter of it or a result
of its body, but for variables that are copied in front of every assignment of them and variables
that are assigned by operations without a counterpart. -/
theorem emit_operands (h : emit p = .ok text) :
    ∃ m sources fs, emitModule p = .ok m ∧ text = m.render ∧ p.funcs = .ok sources ∧
      sources.mapM Ssa.Stacked.enter = .ok fs ∧
      List.Forall₂ (fun f code => ∃ is, f.body = .ok is ∧ ∀ x, .operand x ∈ code.body →
        x ∈ code.params.map Prod.snd ∨ .result x ∈ code.body ∨
          Premature (code.params.map Prod.snd) is x ∨ Unwritten is x) fs m.funcs := by
  obtain ⟨m, hm, h⟩ := Outcome.bind_eq_ok.mp h
  cases h
  obtain ⟨sources, fs, _, l, _, hsources, hfs, _, _, hfuncs, _, _⟩ := emitModule_eq_ok.mp hm
  refine ⟨m, sources, fs, hm, rfl, hsources, hfs, ?_⟩
  exact (Outcome.mapM_eq_ok.mp hfuncs).imp fun f code => operands_emitFunc

/-- Adds a constant to itself and prints a copy of the sum. -/
def doubling : Func where
  name := some "main"
  instrs := some [
    Sample.whole "a" 1,
    Sample.compute .int "add" "b" ["a", "a"],
    Sample.compute .int "id" "c" ["b"],
    Sample.effect "print" ["c"]]

/-- The body of `doubling` in single-assignment form. -/
def doublingBody : List Instr := [
  { label := some "b0" },
  Sample.whole "a_0" 1,
  Sample.compute .int "add" "b_0" ["a_0", "a_0"],
  Sample.compute .int "id" "c_0" ["b_0"],
  Sample.effect "print" ["c_0"],
  Sample.plain "ret"]

theorem emit_operands_doubling :
    ∃ m : Module, emit { functions := some [doubling] } = .ok m.render ∧
      ∃ code ∈ m.funcs, .operand "b_0" ∈ code.body ∧ ∀ x, .operand x ∈ code.body →
        x ∈ code.params.map Prod.snd ∨ .result x ∈ code.body ∨
          Premature (code.params.map Prod.snd) doublingBody x ∨ Unwritten doublingBody x := by
  have entered : Ssa.Stacked.enter doubling =
      .ok { doubling with instrs := some doublingBody } := by
    cbv
  have emitted : emitFunc {} { doubling with instrs := some doublingBody } = .ok {
      result := "void"
      name := "main"
      params := []
      body := .text "b0:\n"
        :: Code.assign "b_0" [.text "add i64 ", .text "1", .text ", ", .text "1"]
        ++ [.text "  call void @print_int(", .text "i64 ", .operand "b_0", .text ")", .text "\n"]
        ++ Code.line [.text "call void @print_newline()"]
        ++ Code.line [.text "ret ", .text "void"] } := by
    cbv
  obtain ⟨m, hm, funcs⟩ := emitModule_single entered rfl emitted
  have ok : emit { functions := some [doubling] } = .ok m.render := by
    rw [emit, hm]
    rfl
  obtain ⟨m', sources, fs, hm', _, hsources, hfs, all⟩ := emit_operands ok
  cases hm.symm.trans hm'
  cases hsources
  rw [Outcome.mapM_eq_ok, List.forall₂_cons_left_iff] at hfs
  obtain ⟨f, _, hf, ⟨⟩, rfl⟩ := hfs
  cases entered.symm.trans hf
  rw [funcs] at all
  obtain ⟨⟨is, his, named⟩, _⟩ := List.forall₂_cons.mp all
  cases his
  refine ⟨m, ok, ?_⟩
  rw [funcs]
  exact ⟨_, List.mem_singleton_self _, by decide, named⟩

/-- Copies a variable in a block that stands in front of the one that sets it. -/
def copyingAhead : Func where
  name := some "main"
  instrs := some [
    { op := some "jmp", labels := some ["set"] },
    { label := some "show" },
    Sample.compute .int "id" "y" ["x"],
    Sample.effect "print" ["y"],
    Sample.plain "ret",
    { label := some "set" },
    Sample.whole "x" 5,
    { op := some "jmp", labels := some ["show"] }]

/-- The body of `copyingAhead` in single-assignment form. -/
def copyingAheadBody : List Instr := [
  { label := some "b0" },
  { op := some "jmp", labels := some ["set"] },
  { label := some "show" },
  Sample.compute .int "id" "y_0" ["x_0"],
  Sample.effect "print" ["y_0"],
  Sample.plain "ret",
  { label := some "set" },
  Sample.whole "x_0" 5,
  { op := some "jmp", labels := some ["show"] }]

/-- The copy of a constant is read from a variable that nothing sets if the copy stands first. -/
theorem emit_copyingAhead : ∃ m, emitModule { functions := some [copyingAhead] } = .ok m ∧
    ∃ code ∈ m.funcs, .operand "x_0" ∈ code.body ∧ "x_0" ∉ code.params.map Prod.snd ∧
      .result "x_0" ∉ code.body := by
  have entered : Ssa.Stacked.enter copyingAhead =
      .ok { copyingAhead with instrs := some copyingAheadBody } := by
    cbv
  have emitted : emitFunc {} { copyingAhead with instrs := some copyingAheadBody } = .ok {
      result := "void"
      name := "main"
      params := []
      body := .text "b0:\n" :: Code.line [.text "br label ", .block "set"]
        ++ .text "show:\n" :: .text "  call void @print_int("
        :: [.text "i64 ", .operand "x_0", .text ")", .text "\n"]
        ++ Code.line [.text "call void @print_newline()"] ++ Code.line [.text "ret ", .text "void"]
        ++ .text "set:\n" :: Code.line [.text "br label ", .block "show"] } := by
    cbv
  obtain ⟨m, hm, funcs⟩ := emitModule_single entered rfl emitted
  refine ⟨m, hm, ?_⟩
  rw [funcs]
  exact ⟨_, List.mem_singleton_self _, by decide, by decide, by decide⟩

end Programs

end Llvm

end BrilKit
