import BrilKit.Proofs.Dominance.Paths
import Mathlib.Algebra.Order.BigOperators.Group.Finset

/-!
# Sets of dominators on their way down

A node is dominated by itself and by what dominates all its predecessors. Sets that are taken down
to what these equations let in hold all dominators at any time, and nothing else in the end.
-/

namespace BrilKit

open List

variable {α : Type} {E : α → α → Prop} {r d n : α} {pred start D : α → List α} {new : List α}
  {nodes : Finset α}

/-- What the equation of a node lets into its set. -/
def Admits (pred D : α → List α) (n a : α) : Prop :=
  (pred n ≠ [] ∧ ∀ p ∈ pred n, a ∈ D p) ∨ a = n

/-- Sets on their way down: they hold all dominators, and the equations let nothing in that is not
there. Those of other nodes stay as they were at the start. -/
structure Descent (E : α → α → Prop) (r : α) (pred start : α → List α) (nodes : Finset α)
    (D : α → List α) : Prop where
  fixed : ∀ n ∉ nodes, D n = start n
  covers : ∀ n d, Dominates E r d n → d ∈ D n
  admits : ∀ n ∈ nodes, ∀ a, Admits pred D n a → a ∈ D n

namespace Descent

section Update

variable (edges : ∀ p n, p ∈ pred n ↔ E p n)
  (lost : ∀ p n, E p n → ¬ Reach E r p → p ∉ nodes ∧ ∀ d, Reach E r d → d ∈ start p)
include edges lost

lemma admits_of_dominates (h : Descent E r pred start nodes D) (hd : Dominates E r d n) :
    Admits pred D n d := by
  by_cases hdn : d = n
  · exact .inr hdn
  refine .inl ⟨?_, fun p hp => ?_⟩
  · -- The node is not the root, so it has a predecessor.
    cases hd.1 with
    | root => exact absurd hd.eq_root hdn
    | step _ e => exact ne_nil_of_mem ((edges _ n).mpr e)
  · have e := (edges p n).mp hp
    by_cases reach : Reach E r p
    · exact h.covers p d (hd.of_edge hdn reach e)
    · obtain ⟨out, all⟩ := lost p n e reach
      rw [h.fixed p out]
      exact all d hd.reach

variable [DecidableEq α]

/-- A set that is taken down to its equation lowers the sum of the sizes. -/
lemma update (h : Descent E r pred start nodes D) (hn : n ∈ nodes)
    (hnew : ∀ a, a ∈ new ↔ Admits pred D n a) (change : ¬ ∀ a, a ∈ D n ↔ a ∈ new) :
    Descent E r pred start nodes (Function.update D n new) ∧
      ∑ m ∈ nodes, (Function.update D n new m).toFinset.card < ∑ m ∈ nodes, (D m).toFinset.card := by
  have sub : new ⊆ D n := fun a ha => h.admits n hn a ((hnew a).mp ha)
  have below : ∀ m, Function.update D n new m ⊆ D m :=
    (Function.forall_update_iff D fun m s => s ⊆ D m).mpr ⟨sub, fun _ _ => Subset.refl _⟩
  obtain ⟨x, hx, gone⟩ : ∃ x ∈ D n, x ∉ new := by
    by_contra all
    push Not at all
    exact change fun a => ⟨all a, @sub a⟩
  refine ⟨⟨fun m hm => ?_, ?_, fun m hm a ha => ?_⟩, ?_⟩
  · rw [Function.update_of_ne (ne_of_mem_of_not_mem hn hm).symm]
    exact h.fixed m hm
  · refine (Function.forall_update_iff D fun m s => ∀ d, Dominates E r d m → d ∈ s).mpr
      ⟨fun d hd => ?_, fun m _ => h.covers m⟩
    exact (hnew d).mpr (h.admits_of_dominates edges lost hd)
  · -- Smaller sets let less in.
    have old : Admits pred D m a := by
      obtain ⟨some, all⟩ | rfl := ha
      · exact .inl ⟨some, fun p hp => below p (all p hp)⟩
      · exact .inr rfl
    by_cases hmn : m = n
    · subst hmn
      rw [Function.update_self]
      exact (hnew a).mpr old
    · rw [Function.update_of_ne hmn]
      exact h.admits m hm a old
  · have sets : ∀ m, (Function.update D n new m).toFinset ⊆ (D m).toFinset := fun m x hx =>
      mem_toFinset.mpr (below m (mem_toFinset.mp hx))
    refine Finset.sum_lt_sum (fun m _ => Finset.card_le_card (sets m))
      ⟨n, hn, Finset.card_lt_card ?_⟩
    rw [Finset.ssubset_iff_of_subset (sets n), Function.update_self]
    exact ⟨x, mem_toFinset.mpr hx, fun hx => gone (mem_toFinset.mp hx)⟩

end Update

/-- Sets that solve the equations hold the dominators only. -/
lemma exact (h : Descent E r pred start nodes D) (edges : ∀ p n, p ∈ pred n ↔ E p n)
    (all : ∀ n, Reach E r n → n = r ∨ n ∈ nodes) (root : ∀ d ∈ D r, d = r)
    (solved : ∀ n ∈ nodes, ∀ a, a ∈ D n ↔ Admits pred D n a) (reach : Reach E r n) :
    d ∈ D n ↔ Dominates E r d n := by
  refine ⟨fun hd => ⟨reach, fun avoids => ?_⟩, h.covers n d⟩
  clear reach
  induction avoids with
  | root hr => exact hr (root d hd).symm
  | @step a b ha e hb ih =>
    obtain rfl | mem := all b (ha.reach.step e)
    · exact hb (root d hd).symm
    · obtain ⟨_, every⟩ | rfl := (solved b mem d).mp hd
      · exact ih (every a ((edges a b).mpr e))
      · exact hb rfl

end Descent

end BrilKit
