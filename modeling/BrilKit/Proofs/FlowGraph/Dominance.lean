import BrilKit.FlowGraph.Dominance
import BrilKit.Proofs.Dominance.Paths
import BrilKit.Proofs.FlowGraph.Build
import BrilKit.Proofs.FlowGraph.Merge

/-!
# Dominance on flow graphs of numbered blocks

The sets that are computed hold dominators, but around loops not all of them: a block is `Covered`
by those that can be told without going in circles. This is enough to place phis.
-/

namespace BrilKit

open List Outcome

namespace FlowGraph

variable {g : FlowGraph} {a b c d e k p q : Nat}

abbrev Live (g : FlowGraph) : Nat → Prop := Reach g.Edge 0

/-- A block through which every way to another one goes, by an argument that is not circular. -/
inductive Covered (g : FlowGraph) (d : Nat) : Nat → Prop where
  | self : Covered g d d
  | step {b : Nat} {n : Node} :
    g[b]? = some n →
    n.pred ≠ [] →
    n.pred.Nodup →
    (∀ p ∈ n.pred, Covered g d p) →
    Covered g d b

/-- The edges that control can take are listed at both ends, and none leads to the first block. -/
structure Rooted (g : FlowGraph) : Prop where
  listed : ∀ {p b}, g.Live p → g.Edge p b → ∃ n, g[b]? = some n ∧ p ∈ n.pred
  root : ∀ n, g[0]? = some n → n.pred = []

/-- An edge that control can take, with a block at neither end. -/
def Passes (g : FlowGraph) (c a b : Nat) : Prop := g.Live a ∧ g.Edge a b ∧ a ≠ c ∧ b ≠ c

namespace Covered

lemma before (w : Rooted g) (h : Covered g d b) (hp : g.Live p) (he : g.Edge p b) (hne : b ≠ d) :
    Covered g d p := by
  obtain ⟨n, hn, hmem⟩ := w.listed hp he
  cases h with
  | self => exact absurd rfl hne
  | step hn' _ _ all =>
    rw [hn] at hn'
    cases hn'
    exact all p hmem

lemma dominates (w : Rooted g) (h : Covered g d b) (live : g.Live b) :
    Dominates g.Edge 0 d b := by
  refine ⟨live, fun ha => ?_⟩
  clear live
  induction ha with
  | root hne =>
    cases h with
    | self => exact hne rfl
    | step hn ne _ _ => exact ne (w.root _ hn)
  | step ha he hne ih => exact ih (h.before w ha.reach he hne)

lemma backward (w : Rooted g) (h : Covered g c b) (way : Relation.TransGen (g.Passes c) a b) :
    Covered g c a := by
  induction way with
  | single st => exact h.before w st.1 st.2.1 st.2.2.2
  | tail _ st ih => exact ih (h.before w st.1 st.2.1 st.2.2.2)

lemma no_cycle (w : Rooted g) (h : Covered g c b) : ¬ Relation.TransGen (g.Passes c) b b := by
  induction h with
  | self =>
    intro cycle
    obtain ⟨_, st, _⟩ := Relation.TransGen.head'_iff.mp cycle
    exact st.2.2.1 rfl
  | @step b n hn _ _ _ ih =>
    intro cycle
    -- The cycle can be turned so that it ends in front of the block.
    obtain ⟨p, way, st⟩ := Relation.TransGen.tail'_iff.mp cycle
    obtain ⟨m, hm, hp⟩ := w.listed st.1 st.2.1
    rw [hn] at hm
    cases hm
    exact ih p hp (.head' st way)

end Covered

/-- Control can go from a block to another one through blocks that are not marked. -/
inductive Carried (g : FlowGraph) (marked : Nat → Prop) (d : Nat) : Nat → Prop where
  | edge {k : Nat} :
    g.Live d →
    g.Edge d k →
    Carried g marked d k
  | step {p k : Nat} :
    Carried g marked d p →
    ¬ marked p →
    g.Edge p k →
    Carried g marked d k

namespace Carried

variable {marked : Nat → Prop}

lemma live (h : Carried g marked d k) : g.Live k := by
  induction h with
  | edge live e => exact live.step e
  | step _ _ e ih => exact ih.step e

lemma passes (h : Carried g marked d k) (hc : marked c) (hd : d ≠ c) (hk : k ≠ c) :
    Relation.TransGen (g.Passes c) d k := by
  induction h with
  | edge live e => exact .single ⟨live, e, hd, hk⟩
  | @step p k h hp e ih =>
    have hpc : p ≠ c := by
      rintro rfl
      exact hp hc
    exact .tail (ih hpc) ⟨h.live, e, hpc, hk⟩

/-- Two marked blocks that cover a block and from both of which control can go there without a
marked block between are the same. -/
theorem unique (w : Rooted g) (hd : marked d) (he : marked e) (cd : Covered g d k)
    (ce : Covered g e k) (h : Carried g marked d k) (h' : Carried g marked e k) : d = e := by
  by_contra hne
  by_cases hkd : k = d
  · subst hkd
    exact ce.no_cycle w (h.passes he hne hne)
  by_cases hke : k = e
  · subst hke
    exact cd.no_cycle w (h'.passes hd (Ne.symm hne) (Ne.symm hne))
  have way : Relation.TransGen (g.Passes e) d k := h.passes he hne hke
  have way' : Relation.TransGen (g.Passes d) e k := h'.passes hd (Ne.symm hne) hkd
  obtain ⟨_, st, _⟩ := Relation.TransGen.head'_iff.mp way
  obtain ⟨_, st', _⟩ := Relation.TransGen.head'_iff.mp way'
  exact hne (((cd.backward w way').dominates w st'.1).antisymm
    ((ce.backward w way).dominates w st.1))

end Carried

/-- The sets of blocks when nothing is left to visit, as far as phis need them. There is one for each
edge that comes in. -/
structure Settled (g : FlowGraph) (s : DomState) : Prop where
  perEdge : ∀ (b : Nat) sets n, s.ins[b]? = some sets → g[b]? = some n → sets.length = n.pred.length
  covered : ∀ (b : Nat) set, s.outs[b]? = some set → ∀ d ∈ set, Covered g d b
  self : ∀ b, g.Live b → ∃ set, s.outs[b]? = some set ∧ b ∈ set
  passed : ∀ (p b : Nat) set, s.outs[p]? = some set → g.Edge p b → ∀ d ∈ set,
    ∃ sets, s.ins[b]? = some sets ∧ ∃ set ∈ sets, d ∈ set

section Frontier

variable {out : List Nat} {t : Table Nat (List Nat)} {j : Nat} {s : DomState}
  {marked phi : Nat → Prop}

lemma mem_frontier_set {ds : List Nat} :
    j ∈ (ds.foldl (fun t d => if out.contains d then t else t.alter d fun ks => ks.getD [] ++ [k])
      t).getD d [] ↔ j ∈ t.getD d [] ∨ j = k ∧ d ∈ ds ∧ d ∉ out := by
  induction ds generalizing t with
  | nil => simp
  | cons c ds ih =>
    rw [foldl_cons, ih]
    by_cases hc : c ∈ out
    · simp only [contains_eq_mem, hc, decide_true, if_true, mem_cons]
      grind
    · simp only [contains_eq_mem, hc, decide_false, Bool.false_eq_true, if_false,
        Table.getD_alter_append, mem_cons]
      grind

lemma mem_frontier_sets {sets : List (List Nat)} :
    j ∈ (sets.foldl (fun t set => (sortNats set).foldl (fun t d =>
      if out.contains d then t else t.alter d fun ks => ks.getD [] ++ [k]) t) t).getD d [] ↔
      j ∈ t.getD d [] ∨ j = k ∧ (∃ set ∈ sets, d ∈ set) ∧ d ∉ out := by
  induction sets generalizing t with
  | nil => simp
  | cons set sets ih =>
    rw [foldl_cons, ih, mem_frontier_set]
    simp only [sortNats, mem_mergeSort, mem_cons]
    grind

/-- The frontier of a block: an edge carries the block in, but it is not in the set there. -/
lemma mem_frontier : j ∈ (frontier s).getD d [] ↔
    ∃ sets out, s.ins[j]? = some sets ∧ s.outs[j]? = some out ∧ (∃ set ∈ sets, d ∈ set) ∧
      d ∉ out := by
  have all : ∀ (es : List ((List (List Nat) × List Nat) × Nat)) (t : Table Nat (List Nat)),
      j ∈ (es.foldl (fun t e => e.1.1.foldl (fun t set => (sortNats set).foldl
        (fun t d => if e.1.2.contains d then t else t.alter d fun ks => ks.getD [] ++ [e.2]) t) t)
        t).getD d [] ↔ j ∈ t.getD d [] ∨
          ∃ e ∈ es, j = e.2 ∧ (∃ set ∈ e.1.1, d ∈ set) ∧ d ∉ e.1.2 := by
    intro es
    induction es with
    | nil => simp
    | cons e es ih =>
      intro t
      rw [foldl_cons, ih, mem_frontier_sets, exists_mem_cons_iff, or_assoc]
  refine (all _ _).trans ?_
  constructor
  · rintro (h | ⟨⟨⟨sets, out⟩, k⟩, he, rfl, hset, hout⟩)
    · cases h
    · have hz := mem_zipIdx_iff_getElem?.mp he
      obtain ⟨hsets, houts⟩ := getElem?_zip_eq_some.mp hz
      exact ⟨sets, out, hsets, houts, hset, hout⟩
  · rintro ⟨sets, out, hsets, houts, hset, hout⟩
    refine .inr ⟨((sets, out), j), mem_zipIdx_iff_getElem?.mpr ?_, rfl, hset, hout⟩
    exact getElem?_zip_eq_some.mpr ⟨hsets, houts⟩

/-- Where phis stand in the frontier of all marked blocks, a block without a phi that is reached from
a marked block has it in its set. -/
lemma Carried.mem_out (st : Settled g s)
    (closed : ∀ d, marked d → ∀ j ∈ (frontier s).getD d [], phi j) (sub : ∀ j, phi j → marked j)
    (hd : marked d) (h : Carried g marked d k) (hk : ¬ phi k) :
    ∃ set, s.outs[k]? = some set ∧ d ∈ set := by
  have onward : ∀ {p k}, g.Edge p k → g.Live k → ¬ phi k →
      (∃ set, s.outs[p]? = some set ∧ d ∈ set) → ∃ set, s.outs[k]? = some set ∧ d ∈ set := by
    rintro p k e live hk ⟨set, hset, hmem⟩
    obtain ⟨sets, hsets, hin⟩ := st.passed p k set hset e d hmem
    obtain ⟨out, hout, _⟩ := st.self k live
    refine ⟨out, hout, ?_⟩
    by_contra hno
    exact hk (closed d hd k (mem_frontier.mpr ⟨sets, out, hsets, hout, hin, hno⟩))
  induction h with
  | edge live e => exact onward e (live.step e) hk (st.self d live)
  | step h hp e ih => exact onward e (h.live.step e) hk (ih fun hphi => hp (sub _ hphi))

/-- A block without a phi is reached from one marked block at most. -/
theorem Carried.eq_of_closed (w : Rooted g) (st : Settled g s)
    (closed : ∀ d, marked d → ∀ j ∈ (frontier s).getD d [], phi j) (sub : ∀ j, phi j → marked j)
    (hd : marked d) (he : marked e) (h : Carried g marked d k) (h' : Carried g marked e k)
    (hk : ¬ phi k) : d = e := by
  obtain ⟨set, hset, hmem⟩ := h.mem_out st closed sub hd hk
  obtain ⟨set', hset', hmem'⟩ := h'.mem_out st closed sub he hk
  exact h.unique w hd he (st.covered k set hset d hmem) (st.covered k set' hset' e hmem') h'

end Frontier

end FlowGraph

end BrilKit
