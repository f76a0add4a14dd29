import BrilKit.Proofs.Run.Speculation

/-!
# Runs without operations whose results are not live

A set of variables at every place of a body says which of them may still be read. Main statement:
the run of what is left shows what the run of the whole shows. A step over an operation that was left
out is matched by no step; it can only have failed where the shorter program goes on.
-/

namespace BrilKit

open List

lemma Instr.Core.not_phi {i : Instr} (h : i.Core) : i.op ≠ some "phi" := by
  cases h with
  | label _ op => simp [op]
  | const op => simp [op]
  | value name op value =>
    rw [op]
    rintro ⟨rfl⟩
    exact absurd value (by decide)
  | call op => simp [op]
  | effect name op effect =>
    rw [op]
    rintro ⟨rfl⟩
    exact absurd effect (by decide)

lemma Instr.Core.isItem {i : Instr} (h : i.Core) : i.IsItem := by
  cases h with
  | label l op label => exact .inl ⟨op, l, label⟩
  | const op label => exact .inr ⟨label, _, op⟩
  | value _ op _ label => exact .inr ⟨label, _, op⟩
  | call op label => exact .inr ⟨label, _, op⟩
  | effect _ op _ label => exact .inr ⟨label, _, op⟩

lemma Instr.Core.isOp_of_dest {i : Instr} {d : String} (h : i.Core) (hd : i.dest = some d) :
    i.isOp = true := by
  by_contra op
  rw [(h.of_not_op (by simpa [Instr.isOp] using op)).1] at hd
  cases hd

namespace DeadCode

open Machine

/-- A core program in which no call has a result: its assignments do nothing but assign. -/
structure Silent (is : List Instr) : Prop where
  core : ∀ i ∈ is, i.Core
  calls : ∀ i ∈ is, i.op = some "call" → i.dest = none

lemma Silent.unspeculative {is : List Instr} (h : Silent is) : Unspeculative is := fun i hi =>
  (h.core i hi).not_speculates

/-- A body, what is left of it, and the variables that must be kept in front of it; `entry` gives
those that must be kept at a label. -/
inductive Sifted (entry : String → List String) :
    List Instr → List Instr → List String → Prop where
  | nil {live : List String} : Sifted entry [] [] live
  | label {i : Instr} {l : String} {is js : List Instr} {behind live : List String} :
    i.op = none → i.label = some l → behind ⊆ entry l → entry l ⊆ live →
    Sifted entry is js behind → Sifted entry (i :: is) (i :: js) live
  | transfer {i : Instr} {is js : List Instr} {behind live : List String} :
    i.isTerminator = true → i.uses ⊆ live → (i.Branches → ∀ l ∈ i.labels.getD [], entry l ⊆ live) →
    Sifted entry is js behind → Sifted entry (i :: is) (i :: js) live
  | keep {i : Instr} {is js : List Instr} {behind live : List String} :
    i.isOp = true → i.isTerminator = false → i.uses ⊆ live →
    (∀ x ∈ behind, i.dest ≠ some x → x ∈ live) →
    Sifted entry is js behind → Sifted entry (i :: is) (i :: js) live
  | drop {i : Instr} {d : String} {is js : List Instr} {behind live : List String} :
    i.dest = some d → d ∉ behind → behind ⊆ live →
    Sifted entry is js behind → Sifted entry (i :: is) js live

variable {entry : String → List String} {A B is js : List Instr} {live : List String} {i : Instr}

lemma Sifted.mono {live' : List String} (h : Sifted entry is js live) (sub : live ⊆ live') :
    Sifted entry is js live' := by
  cases h with
  | nil => exact .nil
  | label ho hl behind front h => exact .label ho hl behind (fun _ hx => sub (front hx)) h
  | transfer term uses targets h =>
    exact .transfer term (fun _ hx => sub (uses hx))
      (fun branches l hl _ hx => sub (targets branches l hl hx)) h
  | keep ho term uses behind h =>
    exact .keep ho term (fun _ hx => sub (uses hx)) (fun x hx hd => sub (behind x hx hd)) h
  | drop hd dead behind h => exact .drop hd dead (fun _ hx => sub (behind hx)) h

lemma Sifted.sublist (h : Sifted entry is js live) : js.Sublist is := by
  induction h with
  | nil => exact .slnil
  | label _ _ _ _ _ ih => exact ih.cons_cons _
  | transfer _ _ _ _ ih => exact ih.cons_cons _
  | keep _ _ _ _ _ ih => exact ih.cons_cons _
  | drop _ _ _ _ ih => exact ih.cons _

lemma Sifted.find_label (h : Sifted entry is js live) (core : ∀ i ∈ is, i.Core) (l : String) :
    (is.dropWhile (fun i => i.label != some l) = [] ∧
        js.dropWhile (fun i => i.label != some l) = []) ∨
      ∃ i is' js', is.dropWhile (fun i => i.label != some l) = i :: is' ∧
        js.dropWhile (fun i => i.label != some l) = i :: js' ∧
        Sifted entry (i :: is') (i :: js') (entry l) := by
  induction h with
  | nil => exact .inl ⟨rfl, rfl⟩
  | @label i m is js _ _ ho hm behind _ h ih =>
    by_cases e : m = l
    · subst e
      exact .inr ⟨i, is, js, by simp [hm], by simp [hm], .label ho hm behind (fun _ hx => hx) h⟩
    · simpa [hm, e] using ih fun j hj => core j (by simp [hj])
  | @transfer i is js _ _ term _ _ _ ih =>
    have hl := (core i (by simp)).isItem.label_of_isOp (Instr.isOp_of_isTerminator term)
    simpa [hl] using ih fun j hj => core j (by simp [hj])
  | @keep i is js _ _ ho _ _ _ _ ih =>
    simpa [(core i (by simp)).isItem.label_of_isOp ho] using
      ih fun j hj => core j (by simp [hj])
  | @drop i d is js _ _ hd _ _ _ ih =>
    have hi := core i (by simp)
    simpa [hi.isItem.label_of_isOp (hi.isOp_of_dest hd)] using ih fun j hj => core j (by simp [hj])

/-- The second state is that of a run of what is left in the place of the first. -/
structure Keeps {V W : Type} (A : List Instr) (entry : String → List String)
    (s t : State V W) : Prop where
  within : ∀ i ∈ s.rest, i ∈ A
  sifted : ∃ live, Sifted entry s.rest t.rest live ∧ ∀ x ∈ live, s.env x = t.env x
  world : s.world = t.world

section Keeps

variable {V W : Type} {M : Meaning V W} {s t : State V W} {behind : List String}

lemma jumpsAlike_of_sifted (core : ∀ i ∈ A, i.Core) (sifted : Sifted entry A B live) {l : String}
    (env : ∀ x ∈ entry l, s.env x = t.env x) (world : s.world = t.world) :
    JumpsAlike A B (Keeps A entry) { s with rest := is } { t with rest := js } l := by
  obtain ⟨ha, hb⟩ | ⟨j, as, bs, ha, hb, rest⟩ := sifted.find_label core l
  · exact .inl ⟨jumpTo_missing ha, jumpTo_missing hb⟩
  · exact .inr ⟨_, _, jumpTo_found ha, jumpTo_found hb, mem_of_found ha, ⟨entry l, rest, env⟩, world⟩

lemma matches_dropped {d : String} (steady : M.Steady) (silent : Silent A) (within : ∀ j ∈ i :: is, j ∈ A)
    (hs : s.rest = i :: is) (hd : i.dest = some d) (dead : d ∉ behind)
    (env : ∀ x ∈ behind, s.env x = t.env x) (rest : Sifted entry is t.rest behind)
    (world : s.world = t.world) :
    Matches M B (Keeps A entry) t (step M A s) := by
  have mem : i ∈ A := within i (by simp)
  have call : i.op ≠ some "call" := fun ho => by
    rw [silent.calls i mem ho] at hd
    cases hd
  obtain ⟨op, ho, phiFree, term, gives⟩ := effect_of_dest steady (silent.core i mem) call hd
  rw [step_straight hs ho phiFree term]
  cases heff : effect M op i.shape (i.uses.map s.env) s.world with
  | none => trivial
  | some r =>
    obtain ⟨v, rfl⟩ := gives _ _ r heff
    simp only [hd]
    refine ⟨0, t, .refl, fun j hj => within j (by simp [hj]), ⟨behind, rest, fun x hx => ?_⟩, world⟩
    have hx' : x ≠ d := by
      rintro rfl
      exact dead hx
    exact (Env.set_other hx').trans (env x hx)

/-- The run of what is left keeps step with the run of the whole. -/
lemma Keeps.step (h : Keeps A entry s t) (steady : M.Steady) (silent : Silent A)
    (sifted : Sifted entry A B live) :
    Matches M B (Keeps A entry) t (step M A s) := by
  obtain ⟨before, rest, env⟩ := h.sifted
  have inside := h.within
  generalize hs : s.rest = as at rest inside
  generalize ht : t.rest = bs at rest
  have operands : ∀ {i : Instr}, i.uses ⊆ before → i.uses.map t.env = i.uses.map s.env :=
    fun uses => map_congr_left fun x hx => (env x (uses hx)).symm
  cases rest with
  | nil =>
    have stops : Machine.step M A s = .stop none s.world := by simp [Machine.step, hs]
    rw [stops]
    exact ⟨0, t, .refl, by simp [Machine.step, ht, h.world]⟩
  | label ho hl behind front rest =>
    rw [step_label hs ho hl]
    refine ⟨1, _, .single (step_label ht ho hl), fun j hj => inside j (by simp [hj]),
      ⟨_, rest, fun x hx => env x (front (behind hx))⟩, h.world⟩
  | @transfer i is js behind _ term uses targets rest =>
    obtain ⟨op, ho⟩ := Option.isSome_iff_exists.mp (Instr.isOp_of_isTerminator term)
    refine (Answers.transfer hs ht rfl ho term (operands uses) h.world fun _ branches l hl => ?_).matches
    exact jumpsAlike_of_sifted silent.core sifted (fun x hx => env x (targets branches l hl hx)) h.world
  | @keep i is js behind _ ho term uses through rest =>
    obtain ⟨op, ho⟩ := Option.isSome_iff_exists.mp ho
    have phiFree : op ≠ "phi" := by
      rintro rfl
      exact (silent.core i (inside i (by simp))).not_phi ho
    have within : ∀ j ∈ is, j ∈ A := fun j hj => inside j (by simp [hj])
    refine (Answers.straight hs ht rfl ho phiFree term (operands uses) h.world ?_ ?_).matches
    · intro hd w
      exact ⟨within, ⟨behind, rest, fun x hx => env x (through x hx (by simp [hd]))⟩, rfl⟩
    · intro d d' hd hd' v w
      obtain rfl : d = d' := Option.mem_unique hd hd'
      refine ⟨within, ⟨behind, rest, fun x hx => ?_⟩, rfl⟩
      by_cases hxd : x = d
      · simp [hxd]
      · have same := env x (through x hx (by simpa [hd] using Ne.symm hxd))
        exact (Env.set_other hxd).trans (same.trans (Env.set_other hxd).symm)
  | @drop i d is js behind _ hd dead sub rest =>
    exact matches_dropped steady silent inside hs hd dead (fun x hx => env x (sub hx)) (ht ▸ rest) h.world

end Keeps

/-- What is left of a body shows what the body shows as long as that has not failed. -/
theorem Sifted.observe (h : Sifted entry A B live) (silent : Silent A) {V W : Type}
    {M : Meaning V W} (steady : M.Steady) {s t : State V W}
    (hs : s.rest = A) (ht : t.rest = B) (env : s.env = t.env) (world : s.world = t.world) {n : Nat}
    (run : (Machine.observe M A n s).2 ≠ .failed) :
    ∃ m, Machine.observe M B m t = Machine.observe M A n s := by
  have start : Keeps A entry s t :=
    ⟨by simp [hs], ⟨live, by rwa [hs, ht], fun x _ => by rw [env]⟩, world⟩
  exact observe_of_simulation (fun _ _ k => k.step steady silent h) start run

end DeadCode

end BrilKit
