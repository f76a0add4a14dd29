import BrilKit.Proofs.FlowGraph.Build

/-!
# Flow graphs can be built

A body whose items are labels and operations, and whose jumps and branches name labels, has a flow
graph if blocks may jump to themselves: the numbers on record are those of blocks read before.
-/

namespace BrilKit

open List Outcome

namespace FlowGraph

variable {style : Style} {c : Builder} {p q : Nat} {i : Instr} {is : List Instr} {l : String}

namespace Builder

lemma modifyDone_total {f : Node → Node} (h : q < c.index) : ∃ c', modifyDone c q f = .ok c' := by
  have hq : c.done[q]? = some (c.done.get ⟨q, h⟩) := getElem?_eq_getElem h
  exact ⟨_, by rw [modifyDone, hq]⟩

lemma index_le_opened : c.index ≤ c.opened.index := by
  unfold opened
  split <;> simp [index, close]

lemma linkBack_total (hs : style.selfEdges = true) (hq : q ≤ c.index) :
    ∃ c', linkBack style c q = .ok c' := by
  unfold linkBack
  dsimp only
  split
  · exact ⟨_, rfl⟩
  · next self =>
    refine modifyDone_total (Nat.lt_of_le_of_ne hq fun e => self ?_)
    rw [hs, Bool.true_and, beq_iff_eq]
    exact e

lemma Placed.le (pl : Placed c) (h : q ∈ c.placed.getD (some l) []) : q ≤ c.index := by
  rw [← count_pos_iff, pl] at h
  by_contra hq
  have none : c.blocksRead[q]? = none :=
    getElem?_eq_none (by simp only [blocksRead, length_map, length_nodes]; omega)
  simp [labelAt, none] at h

lemma Exact.lt_of_jumps (ex : Exact c) (hopen : ∀ i ∈ c.current.block, i.isTerminator = false)
    (h : p ∈ c.jumps.getD (some l) []) : p < c.index := by
  rw [← count_pos_iff, ex.jumps, blocksRead_eq, targetsAt_concat, length_done] at h
  by_contra hp
  split at h
  · have none : c.current.block.flatMap Instr.targets = [] :=
      flatMap_eq_nil_iff.mpr fun i hi => Instr.targets_of_not_isTerminator (hopen i hi)
    simp [none] at h
  · have none : (c.done.map Node.block)[p]? = none := getElem?_eq_none (by rw [length_done]; omega)
    simp [targetsAt, none] at h

lemma foldlM_jump_total (ls : List String) (hs : style.selfEdges = true) (pl : Placed c) :
    ∃ d, ls.foldlM (jump style) c = .ok d := by
  have step : ∀ l ∈ ls, ∀ d : Builder, d.placed = c.placed ∧ d.index = c.index →
      ∃ e, jump style d l = .ok e ∧ e.placed = c.placed ∧ e.index = c.index := by
    intro l _ d same
    obtain ⟨e, he, hi⟩ : ∃ e, jump style d l = .ok e ∧ e.index = c.index := by
      refine foldlM_total (fun e : Builder => e.index = c.index) (fun q hq e hi => ?_) same.2
      obtain ⟨e', he'⟩ := linkBack_total (c := e) hs (hi ▸ pl.le (same.1 ▸ hq))
      exact ⟨e', he', (linkBack_wired he').index_eq.trans hi⟩
    exact ⟨e, he, (jump_wired he).placed.trans same.1, hi⟩
  obtain ⟨d, hd, -⟩ := foldlM_total _ step ⟨rfl, rfl⟩
  exact ⟨d, hd⟩

lemma take_total (hs : style.selfEdges = true) (ex : Exact c) (ft : Fit c.gathered)
    (item : i.IsItem) (labels : i.Branches → ∃ ls, i.labels = some ls) :
    ∃ c', take style c i = .ok c' ∧ Exact c' ∧ Fit c'.gathered := by
  suffices ok : ∃ c', take style c i = .ok c' by
    obtain ⟨c', h⟩ := ok
    exact ⟨c', h, take_exact ex ft item h⟩
  unfold take
  obtain ⟨ho, l, hl⟩ | ⟨-, op, ho⟩ := item
  · rw [if_neg (by simp [Instr.isOp, ho])]
    obtain ⟨d, hd, -⟩ : ∃ d, (c.jumps.getD (some l) []).foldlM linkForward
        { c.opened.push i with placed := note c.placed (some l) c.opened.index } = .ok d ∧
        d.index = c.opened.index := foldlM_total (fun d : Builder => d.index = c.opened.index)
      (fun p hp d hi => by
        obtain ⟨d', hd'⟩ : ∃ d', linkForward d p = .ok d' :=
          modifyDone_total (Nat.lt_of_lt_of_le (ex.lt_of_jumps ft.current hp) (hi ▸ index_le_opened))
        exact ⟨d', hd', (linkForward_wired hd').index_eq.trans hi⟩) rfl
    exact ⟨d, takeLabel_eq_ok.mpr ⟨by simp [hl], by rwa [hl]⟩⟩
  · rw [if_pos (by simp [Instr.isOp, ho])]
    unfold takeOp
    split
    · exact ⟨c, rfl⟩
    split
    · next term =>
      split
      · exact ⟨_, rfl⟩
      · next ret =>
        obtain ⟨ls, hls⟩ := labels (Instr.branches_of_isTerminator ho term (by
          rintro rfl
          simp [Instr.hasOp, ho] at ret))
        obtain ⟨d, hd⟩ := foldlM_jump_total ls hs ex.placed
        exact ⟨_, ok_bind (ofOption_eq_ok.mpr hls) (ok_bind hd rfl)⟩
    · exact ⟨_, rfl⟩

end Builder

/-- A body can be read to its end. -/
theorem ofBody_total (hs : style.selfEdges = true) (items : ∀ i ∈ is, i.IsItem)
    (labels : ∀ i ∈ is, i.Branches → ∃ ls, i.labels = some ls) : ∃ g, ofBody style is = .ok g := by
  obtain ⟨c, hc, -⟩ := foldlM_total
    (fun c : Builder => Builder.Exact c ∧ Builder.Fit c.gathered)
    (fun i hi c both => Builder.take_total hs both.1 both.2 (items i hi) (labels i hi))
    ⟨Builder.exact_empty, by simp [Builder.gathered], by simp [Builder.gathered]⟩
  exact ⟨c.graph, ok_bind hc rfl⟩

end FlowGraph

end BrilKit
