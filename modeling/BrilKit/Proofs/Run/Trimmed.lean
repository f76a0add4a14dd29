import BrilKit.Proofs.FlowGraph.Labelled
import BrilKit.Proofs.Run.Simulation

/-!
# Runs without unreachable operations

No control reaches an operation between a terminator and the next label. Main statement: a body
without these operations, behind some labels that nothing jumps to, runs as the body does.
-/

namespace BrilKit

open FlowGraph List Machine

variable {V W : Type} {M : Meaning V W} {A : List Instr} {s t : State V W} {i : Instr}
  {is : List Instr} {l : String}

namespace Machine

lemma find_trimmed (passed : Bool) (items : ∀ i ∈ is, i.IsItem) (l : String) :
    (is.dropWhile (fun i => i.label != some l) = [] ∧
        (trimmed passed is).dropWhile (fun i => i.label != some l) = []) ∨
      ∃ i rest, is.dropWhile (fun i => i.label != some l) = i :: rest ∧ i.isOp = false ∧
        (trimmed passed is).dropWhile (fun i => i.label != some l) = i :: trimmed false rest := by
  induction is generalizing passed with
  | nil => exact .inl ⟨rfl, rfl⟩
  | cons i is ih =>
    have rest := fun passed => ih passed fun j hj => items j (by simp [hj])
    rw [trimmed_cons]
    obtain ⟨ho, m, hm⟩ | ⟨hl, op, ho⟩ := items i (by simp)
    · rw [if_neg (by simp [Instr.isOp, ho])]
      by_cases e : m = l
      · exact .inr ⟨i, is, by simp [hm, e], by simp [Instr.isOp, ho], by simp [hm, e]⟩
      · simpa [dropWhile_cons, hm, e] using rest false
    · rw [if_pos (by simp [Instr.isOp, ho])]
      split
      · simpa [dropWhile_cons, hl] using rest true
      · simpa [dropWhile_cons, hl] using rest i.isTerminator

/-- A run of a body and one without the unreachable operations, at the same place. -/
structure Abreast (A : List Instr) (s t : State V W) : Prop where
  within : ∀ i ∈ s.rest, i ∈ A
  rest : t.rest = trimmed false s.rest
  env : s.env = t.env
  world : s.world = t.world

variable {front : List Instr}

lemma Abreast.answers (h : Abreast A s t) (items : ∀ i ∈ A, i.IsItem)
    (phiFree : ∀ i ∈ A, i.op ≠ some "phi")
    (fresh : ∀ i ∈ A, i.Branches → ∀ l ∈ i.labels.getD [], ∀ j ∈ front, j.label ≠ some l) :
    Answers M (front ++ trimmed false A) (Abreast A) (fun _ => False) t (step M A s) := by
  cases hs : s.rest with
  | nil =>
    have stop : step M A s = .stop none s.world := by simp [step, hs]
    rw [stop]
    exact .inl ⟨0, t, .refl, by simp [step, h.rest, hs, trimmed, h.world]⟩
  | cons i is =>
    have mem : i ∈ A := h.within i (by simp [hs])
    have within : ∀ j ∈ is, j ∈ A := fun j hj => h.within j (by simp [hs, hj])
    obtain ⟨ho, l, hl⟩ | ⟨hl, op, ho⟩ := items i mem
    · have ht : t.rest = i :: trimmed false is := by
        rw [h.rest, hs, trimmed_cons, if_neg (by simp [Instr.isOp, ho])]
      rw [step_label hs ho hl]
      exact .inl ⟨0, _, .single (step_label ht ho hl), within, rfl, h.env, h.world⟩
    · have ht : t.rest = i :: trimmed i.isTerminator is := by
        rw [h.rest, hs, trimmed_cons, if_pos (by simp [Instr.isOp, ho])]
        rfl
      have vals : i.uses.map t.env = i.uses.map s.env := by rw [h.env]
      cases term : i.isTerminator with
      | true =>
        refine .transfer hs ht rfl ho term vals h.world fun _ branches l hl => ?_
        have skip : (front ++ trimmed false A).dropWhile (fun i => i.label != some l) =
            (trimmed false A).dropWhile fun i => i.label != some l := by
          refine dropWhile_append_of_pos fun j hj => ?_
          simpa using fresh i mem branches l hl j hj
        obtain ⟨e, e'⟩ | ⟨j, rest, e, hj, e'⟩ := find_trimmed false items l
        · exact .inl ⟨jumpTo_missing e, jumpTo_missing (skip.trans e')⟩
        · refine .inr ⟨_, _, jumpTo_found e, jumpTo_found (skip.trans e'), mem_of_found e, ?_,
            h.env, h.world⟩
          show j :: trimmed false rest = trimmed false (j :: rest)
          rw [trimmed_cons, if_neg (by simp [hj])]
      | false =>
        rw [term] at ht
        have phi : op ≠ "phi" := by
          rintro rfl
          exact phiFree i mem ho
        refine .straight hs ht rfl ho phi term vals h.world ?_ ?_
        · exact fun _ w => ⟨within, rfl, h.env, rfl⟩
        · intro d d' hd hd' v w
          cases hd.symm.trans hd'
          exact ⟨within, rfl, by rw [h.env], rfl⟩

lemma steps_labels {B r : List Instr} (ls : List String)
    (ht : t.rest = ls.map .labelled ++ r) : ∃ u, Steps M B ls.length t (ls.map .enter) u ∧
      u.rest = r ∧ u.env = t.env ∧ u.world = t.world := by
  induction ls generalizing t with
  | nil => exact ⟨t, .refl, ht, rfl, rfl⟩
  | cons l ls ih =>
    obtain ⟨u, st, hu⟩ := ih (t := ⟨ls.map .labelled ++ r, t.env, t.world, some l, t.label⟩) rfl
    exact ⟨u, .head (step_label ht rfl rfl) st, hu⟩

end Machine

/-- A body whose blocks are labelled and whose unreachable operations are gone, behind some labels. -/
lemma follows_trimmed {first : Instr} (items : ∀ i ∈ first :: is, i.IsItem)
    (phiFree : ∀ i ∈ first :: is, i.op ≠ some "phi") (ls : List String)
    (fresh : ∀ i ∈ first :: is, i.Branches → ∀ l ∈ i.labels.getD [],
      l ∉ ls ++ newLabels (first :: is))
    (hs : s.rest = first :: is) (ht : t.rest = ls.map .labelled ++ trimmed true (withLabel first is))
    (he : s.env = t.env) (hw : s.world = t.world) :
    Follows M (first :: is) (ls.map .labelled ++ trimmed true (withLabel first is)) (fun _ => False)
      ((ls ++ newLabels (first :: is)).map .enter) s t := by
  have e : ls.map Instr.labelled ++ trimmed true (withLabel first is) =
      (ls ++ newLabels (first :: is)).map .labelled ++ trimmed false (first :: is) := by
    rw [trimmed_withLabel, map_append, append_assoc]
    cases op : first.isOp <;> simp [newLabels, op]
  rw [e] at ht ⊢
  obtain ⟨u, st, hu, henv, hworld⟩ := steps_labels (M := M) (ls ++ newLabels (first :: is)) ht
  rw [← append_nil (map Event.enter _)]
  refine .behind st (.of_simulation (fun _ _ h => h.answers items phiFree ?_)
    (⟨by simp [hs], by rw [hu, hs], he.trans henv.symm, hw.trans hworld.symm⟩ : Abreast _ s u))
  intro i hi branches l hl j hj
  obtain ⟨m, hm, rfl⟩ := mem_map.mp hj
  rintro ⟨⟩
  exact fresh i hi branches _ hl hm

end BrilKit
