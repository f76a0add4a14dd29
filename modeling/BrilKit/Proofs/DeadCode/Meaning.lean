import BrilKit.Pass
import BrilKit.Proofs.DeadCode.Overwritten
import BrilKit.Proofs.DeadCode.Sifted

/-!
# Runs without dead assignments

Leaving out dead assignments of a core program does not change what a run that comes to its end
shows and returns, in every meaning in which core operations only give values.
-/

namespace BrilKit

open List

lemma Instr.Core.regular {i : Instr} (h : i.Core) : i.Regular where
  label op := by
    obtain ⟨dest, args⟩ := h.of_not_op (by simpa [Instr.isOp] using op)
    exact ⟨dest, by simp [Instr.uses, args]⟩
  terminator := h.dest_of_terminator

/-- Every run of the first function that returns is matched by one of the second, which shows the
same labels, prints and calls and returns the same value in the same world. -/
def Func.ReturnsLike (f g : Func) : Prop :=
  ∀ (V W : Type) (M : Meaning V W), M.Steady →
    ∀ (args : List V) (world : W) (n : Nat) (es : List (Event V)) (v : Option V) (w : W),
    f.observe M args world n = (es, .returned v w) →
      ∃ m, g.observe M args world m = (es, .returned v w)

namespace DeadCode

open Machine

/-- The second body is what is left of the first. Every run of the first that returns is matched by
one of the second, which shows the same and returns the same. -/
structure Preserves (is js : List Instr) : Prop where
  sublist : js.Sublist is
  runs : ∀ (V W : Type) (M : Meaning V W), M.Steady →
    ∀ (env : Env V) (world : W) (n : Nat) (es : List (Event V)) (v : Option V) (w : W),
    observe M is n { rest := is, env, world } = (es, .returned v w) →
      ∃ m, observe M js m { rest := js, env, world } = (es, .returned v w)

section Passes

variable {is js ks : List Instr}

lemma Silent.sublist (h : Silent is) (sub : js.Sublist is) : Silent js where
  core i hi := h.core i (sub.subset hi)
  calls i hi := h.calls i (sub.subset hi)

lemma Silent.regular (h : Silent is) : ∀ i ∈ is, i.Regular := fun i hi => (h.core i hi).regular

lemma Preserves.refl (is : List Instr) : Preserves is is :=
  ⟨.refl is, fun _ _ _ _ _ _ n _ _ _ run => ⟨n, run⟩⟩

lemma Preserves.trans (h : Preserves is js) (h' : Preserves js ks) : Preserves is ks := by
  refine ⟨h'.sublist.trans h.sublist, fun V W M steady env world n es v w run => ?_⟩
  obtain ⟨m, run⟩ := h.runs V W M steady env world n es v w run
  exact h'.runs V W M steady env world m es v w run

/-- What is not overwritten must be kept: at a label, and where control goes to one, all that is read
anywhere. -/
lemma Sieved.sifted {read : List String} (h : Sieved read is js) (core : ∀ i ∈ is, i.Core)
    (reads : ∀ i ∈ is, i.uses ⊆ read) :
    Sifted (fun _ => read) is js (read.filter fun x => !overwritten x is) := by
  induction h with
  | nil => exact .nil
  | @keep i is js _ ih =>
    obtain ⟨hi, core⟩ := forall_mem_cons.mp core
    obtain ⟨ri, reads⟩ := forall_mem_cons.mp reads
    have rest := ih core reads
    have uses : i.uses ⊆ read.filter fun x => !overwritten x (i :: is) := fun x hx =>
      mem_filter.mpr ⟨ri hx, by simp [overwritten, hx]⟩
    cases ho : i.isOp with
    | false =>
      obtain ⟨op, l, hl⟩ | ⟨-, op, hop⟩ := hi.isItem
      · exact .label op hl (filter_subset_self _) (by simp [overwritten, ho]) rest
      · simp [Instr.isOp, hop] at ho
    | true =>
      cases term : i.isTerminator with
      | true =>
        refine .transfer term uses (fun _ _ _ => ?_) rest
        simp [overwritten, term, hi.dest_of_terminator term]
      | false =>
        refine .keep ho term uses (fun x hx hd => ?_) rest
        simp only [mem_filter, overwritten] at hx ⊢
        simp [hx, hd]
  | @drop i is js d hd dead _ ih =>
    have gone : d ∉ read.filter fun x => !overwritten x is := by
      simpa [Dead, imp_iff_not_or] using dead
    refine .drop hd gone (fun x hx => ?_)
      (ih (forall_mem_cons.mp core).2 (forall_mem_cons.mp reads).2)
    have other : d ≠ x := fun e => gone (e ▸ hx)
    simp only [mem_filter, overwritten] at hx ⊢
    simp [hx, hd, other]

lemma Sieved.preserves (h : Sieved (is.flatMap Instr.uses) is js) (silent : Silent is) :
    Preserves is js := by
  refine ⟨h.sublist, fun V W M steady env world n es v w run => ?_⟩
  have sifted := h.sifted silent.core fun i hi x hx => mem_flatMap.mpr ⟨i, hi, hx⟩
  obtain ⟨m, same⟩ := sifted.observe silent steady (s := { rest := is, env, world })
    (t := { rest := js, env, world }) rfl rfl rfl rfl (n := n) (by simp [run])
  exact ⟨m, same.trans run⟩

lemma preserves_dropUnreadWithin (n : Nat) (silent : Silent is) :
    Preserves is (dropUnreadWithin n is) := by
  induction n generalizing is with
  | zero => exact .refl is
  | succ n ih =>
    have sieved := sieved_dropUnread is
    have first := sieved.preserves silent
    simp only [dropUnreadWithin]
    split
    · exact first
    · exact first.trans (ih (silent.sublist sieved.sublist))

lemma preserves_cleanWithin (n : Nat) (silent : Silent is) : Preserves is (cleanWithin n is) := by
  induction n generalizing is with
  | zero => exact .refl is
  | succ n ih =>
    have unread := sieved_dropUnread is
    have first := unread.preserves silent
    have silent' := silent.sublist unread.sublist
    have killed := sieved_dropKilled ((dropUnread is).flatMap Instr.uses) silent'.regular
    have second := first.trans (killed.preserves silent')
    simp only [cleanWithin]
    split
    · exact first.trans (ih silent')
    · split
      · exact second.trans (ih (silent'.sublist killed.sublist))
      · exact second

lemma exists_mapBody {f : Func} {t : List Instr → List Instr} (body : f.body = .ok is)
    (silent : Silent is) (h : Preserves is (t is)) :
    ∃ g, f.mapBody t = .ok g ∧ f.ReturnsLike g := by
  have hf : f.instrs.getD [] = is := by rw [Outcome.ofOption_eq_ok.mp body, Option.getD_some]
  have quiet := (silent.sublist h.sublist).unspeculative
  refine ⟨f.withBody (t is), Outcome.ok_bind body rfl, ?_⟩
  intro V W M steady args world n es v w run
  rw [Func.observe_eq (hf ▸ silent.unspeculative), Func.start, hf] at run
  simp only [Func.observe_eq (f := f.withBody (t is)) quiet]
  exact h.runs V W M steady _ world n es v w run

/-- Removing dead assignments, by passes over the whole body or over its blocks, once or until
nothing changes, leaves a function that shows and returns the same on every input on which the
function it comes from returns. -/
theorem onFunc_returnsLike {p : Pass} {f : Func}
    (hp : p ∈ [Pass.clean, .dropUnreadAll, .dropUnread, .dropKilled]) (body : f.body = .ok is)
    (silent : Silent is) : ∃ g, p.onFunc f = .ok g ∧ f.ReturnsLike g := by
  simp only [List.mem_cons, List.not_mem_nil, or_false] at hp
  obtain rfl | rfl | rfl | rfl := hp
  · exact exists_mapBody body silent (preserves_cleanWithin _ silent)
  · exact exists_mapBody body silent (preserves_dropUnreadWithin _ silent)
  · exact exists_mapBody body silent ((sieved_dropUnread is).preserves silent)
  · exact exists_mapBody body silent ((sieved_dropKilled _ silent.regular).preserves silent)

theorem onFunc_returnsLike_wasteful : ∃ g, Pass.onFunc .clean .wasteful = .ok g ∧
    ∃ m, g.observe .words [] () m =
      ([.enter "end", .print [.int 2]], .returned none ()) := by
  obtain ⟨g, h, same⟩ := onFunc_returnsLike (p := .clean) (f := .wasteful) (by simp) rfl
    ⟨by decide, by decide⟩
  exact ⟨g, h, same Val Unit _ Meaning.steady_word [] () 8 _ _ _ (by decide)⟩

end Passes

end DeadCode

end BrilKit
