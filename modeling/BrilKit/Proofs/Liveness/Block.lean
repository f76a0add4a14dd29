import BrilKit.Liveness.Block
import BrilKit.Proofs.DeadCode.Sifted

/-!
# Live variables of a block

The variables that are live at the start of a block grow with those that are live at its end.
`Cleared` tells how a block without some of its dead operations stands beside the block; one more
pass over it takes operations away and keeps the relation.
-/

namespace BrilKit

namespace Liveness

variable {i : Instr} {b c : Block} {out out' live live' : List String} {x : String}

lemma mem_before : x ∈ before i live ↔ x ∈ i.uses ∨ x ∈ live ∧ i.dest ≠ some x := by
  unfold before
  rw [or_comm]
  cases hd : i.dest with
  | none => simp
  | some d => simp [eq_comm (a := d)]

lemma blockStart_cons : blockStart (i :: b) out = before i (blockStart b out) := rfl

lemma blockStart_mono (h : out ⊆ out') : blockStart b out ⊆ blockStart b out' := by
  induction b with
  | nil => exact h
  | cons i b ih =>
    intro x hx
    rw [blockStart_cons, mem_before] at hx ⊢
    exact hx.imp_right fun hx => ⟨ih hx.1, hx.2⟩

lemma blockStart_subset {names : List String} (uses : ∀ i ∈ b, i.uses ⊆ names) (h : out ⊆ names) :
    blockStart b out ⊆ names := by
  induction b with
  | nil => exact h
  | cons i b ih =>
    intro x hx
    rw [blockStart_cons, mem_before] at hx
    obtain hx | ⟨hx, -⟩ := hx
    · exact uses i (by simp) hx
    · exact ih (fun j hj => uses j (by simp [hj])) hx

lemma pruneBlock_cons : pruneBlock (i :: b) out = pruneStep i (pruneBlock b out) := rfl

lemma exists_of_isDead (h : isDead i live = true) : ∃ d, i.dest = some d ∧ d ∉ live := by
  unfold isDead at h
  cases hd : i.dest with
  | none => simp [hd] at h
  | some d => exact ⟨d, rfl, by simpa [hd] using (Bool.and_eq_true_iff.mp h).2⟩

/-- A block, what is left of it, and the variables live at its start, by those live at its end. -/
inductive Cleared (out : List String) : Block → Block → List String → Prop where
  | nil {live : List String} : out ⊆ live → Cleared out [] [] live
  | label {i : Instr} {b c : Block} {behind live : List String} :
    i.isOp = false → behind ⊆ live → Cleared out b c behind → Cleared out (i :: b) (i :: c) live
  | keep {i : Instr} {b c : Block} {behind live : List String} :
    i.isOp = true → i.uses ⊆ live → (∀ x ∈ behind, i.dest ≠ some x → x ∈ live) →
    Cleared out b c behind → Cleared out (i :: b) (i :: c) live
  | drop {i : Instr} {d : String} {b c : Block} {behind live : List String} :
    i.isOp = true → i.dest = some d → d ∉ behind → behind ⊆ live →
    Cleared out b c behind → Cleared out (i :: b) c live

namespace Cleared

lemma mono (h : Cleared out b c live) (hout : out' ⊆ out) (hlive : live ⊆ live') :
    Cleared out' b c live' := by
  induction h generalizing live' with
  | nil sub => exact .nil fun x hx => hlive (sub (hout hx))
  | label ho sub _ ih => exact .label ho (fun x hx => hlive (sub hx)) (ih fun _ hx => hx)
  | keep ho uses through _ ih =>
    exact .keep ho (fun x hx => hlive (uses hx)) (fun x hx hd => hlive (through x hx hd))
      (ih fun _ hx => hx)
  | drop ho hd dead sub _ ih =>
    exact .drop ho hd dead (fun x hx => hlive (sub hx)) (ih fun _ hx => hx)

lemma refl (labels : ∀ i ∈ b, i.isOp = false → i.dest = none) :
    Cleared out b b (blockStart b out) := by
  induction b with
  | nil => exact .nil fun _ hx => hx
  | cons i b ih =>
    have rest := ih fun j hj => labels j (by simp [hj])
    rw [blockStart_cons]
    cases ho : i.isOp with
    | false =>
      refine .label ho (fun x hx => mem_before.mpr (.inr ⟨hx, ?_⟩)) rest
      simp [labels i (by simp) ho]
    | true =>
      exact .keep ho (fun x hx => mem_before.mpr (.inl hx))
        (fun x hx hd => mem_before.mpr (.inr ⟨hx, hd⟩)) rest

/-- Once more through what is left of a block: no more is live at its start than before. -/
lemma pruned (h : Cleared out b c live) :
    Cleared out b (pruneBlock c out).1 (pruneBlock c out).2 ∧ (pruneBlock c out).2 ⊆ live := by
  induction h with
  | nil sub => exact ⟨.nil fun _ hx => hx, sub⟩
  | @label i b c behind live ho sub _ ih =>
    have e : pruneBlock (i :: c) out = (i :: (pruneBlock c out).1, (pruneBlock c out).2) := by
      rw [pruneBlock_cons, pruneStep, isDead, ho]
      rfl
    rw [e]
    exact ⟨.label ho (fun _ hx => hx) ih.1, fun x hx => sub (ih.2 hx)⟩
  | @keep i b c behind live ho uses through _ ih =>
    cases dead : isDead i (pruneBlock c out).2 with
    | true =>
      have e : pruneBlock (i :: c) out = pruneBlock c out := by
        rw [pruneBlock_cons, pruneStep, if_pos dead]
      obtain ⟨d, hd, hmem⟩ := exists_of_isDead dead
      rw [e]
      refine ⟨.drop ho hd hmem (fun _ hx => hx) ih.1, fun x hx => through x (ih.2 hx) fun hx' => ?_⟩
      obtain rfl := Option.mem_unique hd hx'
      exact hmem hx
    | false =>
      have e : pruneBlock (i :: c) out =
          (i :: (pruneBlock c out).1, before i (pruneBlock c out).2) := by
        rw [pruneBlock_cons, pruneStep, if_neg (by simp [dead]), if_pos ho]
      rw [e]
      refine ⟨.keep ho (fun x hx => mem_before.mpr (.inl hx))
        (fun x hx hd => mem_before.mpr (.inr ⟨hx, hd⟩)) ih.1, fun x hx => ?_⟩
      obtain hx | ⟨hx, hd⟩ := mem_before.mp hx
      · exact uses hx
      · exact through x (ih.2 hx) hd
  | drop ho hd dead sub _ ih =>
    exact ⟨.drop ho hd (fun hx => dead (ih.2 hx)) (fun _ hx => hx) ih.1, fun x hx => sub (ih.2 hx)⟩

end Cleared

end Liveness

end BrilKit
