import BrilKit.IndexGraph.Dominance
import BrilKit.Proofs.Dominance.Exact
import BrilKit.Proofs.IndexGraph.Loops

/-!
# Dominance over block numbers is exact

On a graph in which every block can be reached, the rounds take blocks out of the sets until the
sets are those of the dominators. The sets that a block dominates, the tree of immediate dominators
and the frontiers follow from them.
-/

namespace BrilKit

open List

namespace IndexGraph

variable {g : IndexGraph} {doms : List (List Nat)} {order : List Nat} {d i j k n : Nat}

lemma Complete.lt_of_reach (c : Complete g) (h : Reach (Arrow g.edges) 0 k) : k < g.size := by
  cases h with
  | root => exact c.pos
  | step _ e => exact c.length ▸ c.closed _ _ e

def fullSets (g : IndexGraph) : List (List Nat) :=
  g.indices.map fun k => if k = 0 then [0] else g.indices

lemma getD_fullSets (hk : k < g.size) :
    g.fullSets.getD k [] = if k = 0 then [0] else g.indices := by
  simp [fullSets, indices, hk]

/-- What the sets are between a round and the next. -/
structure Descends (g : IndexGraph) (doms : List (List Nat)) : Prop where
  length : doms.length = g.size
  bound : ∀ k, ∀ d ∈ doms.getD k [], d < g.size
  descent : Descent (Arrow g.edges) 0 (g.preds.getD · []) (g.fullSets.getD · [])
    ((Finset.range g.size).erase 0) (doms.getD · [])

/-- The set of a block is what its equation lets in. -/
def Solved (g : IndexGraph) (doms : List (List Nat)) (k : Nat) : Prop :=
  ∀ d, d ∈ doms.getD k [] ↔ Admits (g.preds.getD · []) (doms.getD · []) k d

def total (g : IndexGraph) (doms : List (List Nat)) : Nat :=
  ∑ k ∈ (Finset.range g.size).erase 0, (doms.getD k []).toFinset.card

lemma mem_domUpdate (bound : ∀ k, ∀ d ∈ doms.getD k [], d < g.size) :
    d ∈ domUpdate g doms k ↔ Admits (g.preds.getD · []) (doms.getD · []) k d := by
  unfold domUpdate Admits
  dsimp only
  cases g.preds.getD k [] with
  | nil => simp
  | cons p ps =>
    rw [if_neg (by simp), Members.mem_add, ← foldl_map (f := fun p => doms.getD p []),
      Members.mem_foldl_meet, indices, mem_range, forall_mem_map]
    refine or_congr_left (and_congr_left fun all => ?_)
    simpa using bound p d (all p mem_cons_self)

def domStep (g : IndexGraph) (st : List (List Nat) × Bool) (k : Nat) : List (List Nat) × Bool :=
  if Members.same (domUpdate g st.1 k) (st.1.getD k []) then st
  else (st.1.set k (domUpdate g st.1 k), true)

section Rounds

variable (c : Complete g) (reach : ∀ k < g.size, Reach (Arrow g.edges) 0 k)
include c reach

/-- An update finds the equation solved, or takes the set down to it. -/
lemma Descends.domStep {st : List (List Nat) × Bool} (h : Descends g st.1)
    (hk : k ∈ (Finset.range g.size).erase 0) : Descends g (domStep g st k).1 ∧
      (domStep g st k = st ∧ Solved g st.1 k ∨
        (domStep g st k).2 = true ∧ total g (domStep g st k).1 < total g st.1) := by
  unfold IndexGraph.domStep
  split
  · next same =>
    exact ⟨h, .inl ⟨rfl, fun d => (Members.same_iff.mp same d).symm.trans (mem_domUpdate h.bound)⟩⟩
  · next change =>
    have lt : k < st.1.length := by
      rw [h.length]
      exact Finset.mem_range.mp (Finset.mem_of_mem_erase hk)
    have set : (fun j => (st.1.set k (domUpdate g st.1 k)).getD j []) =
        Function.update (fun j => st.1.getD j []) k (domUpdate g st.1 k) := by
      funext j
      by_cases hj : j = k
      · simp [hj, lt]
      · simp [getElem?_set_ne (Ne.symm hj), Function.update_of_ne hj]
    obtain ⟨descent, less⟩ := h.descent.update (fun _ _ => c.arrow_preds)
      (fun p _ e lost => absurd (reach p (c.length ▸ e.lt)) lost) hk
      (fun d => mem_domUpdate h.bound) fun same =>
        change (Members.same_iff.mpr fun d => (same d).symm)
    rw [← set] at descent
    refine ⟨⟨by rw [length_set, h.length], fun j d hd => ?_, descent⟩, .inr ⟨rfl, ?_⟩⟩
    · have sub : ∀ d, d ∈ domUpdate g st.1 k → d ∈ st.1.getD k [] := fun d hd =>
        h.descent.admits k hk d ((mem_domUpdate h.bound).mp hd)
      rw [congrFun set j] at hd
      exact (Function.forall_update_iff (fun j => st.1.getD j []) fun _ s => ∀ d ∈ s, d < g.size).mpr
        ⟨fun d hd => h.bound k d (sub d hd), fun j _ => h.bound j⟩ j d hd
    · simpa only [total, ← congrFun set] using less

lemma Descends.settle (hs : ∀ k ∈ order, k ∈ (Finset.range g.size).erase 0) (h : Descends g doms)
    (enough : total g doms < n) :
    ∃ doms', domSettle g order n doms = .ok doms' ∧ Descends g doms' ∧
      ∀ k ∈ order, Solved g doms' k := by
  induction n generalizing doms with
  | zero => omega
  | succ n ih =>
    obtain ⟨⟨mid, changed⟩, round, h', same | ⟨flag, less⟩⟩ := Outcome.foldlM_round
      (s := (doms, false)) (f := fun st k => pure (IndexGraph.domStep g st k)) (μ := total g)
      (fun k (hk : k ∈ order) st h => ⟨_, rfl, h.domStep c reach (hs k hk)⟩) h
    all_goals
      rw [foldlM_pure] at round
      have round : domRound g order doms = (mid, changed) := Outcome.pure_eq_ok.mp round
      rw [domSettle, round]
    · obtain ⟨e, all⟩ := same
      cases e
      exact ⟨doms, rfl, h, all⟩
    · obtain rfl : changed = true := flag
      have lower : total g mid < total g doms := less
      have h' : Descends g mid := h'
      exact ih h' (by omega)

lemma Complete.reversePostorder_root : ∃ rest, g.reversePostorder = .ok (0 :: rest) ∧
    ∀ k, k ∈ rest ↔ k < g.size ∧ k ≠ 0 := by
  obtain ⟨order, post, nodup, -, all, first⟩ := c.reversePostorder_spec
  obtain ⟨rest, rfl⟩ := head?_eq_some_iff.mp (first fun x hx => reach_iff.mp (reach x hx))
  refine ⟨rest, post, fun k => ?_⟩
  obtain ⟨fresh, -⟩ := nodup_cons.mp nodup
  rw [← all k, mem_cons]
  constructor
  · exact fun hk => ⟨.inr hk, fun zero => fresh (zero ▸ hk)⟩
  · exact fun hk => hk.1.resolve_left hk.2

/-- The sets that are computed are those of the dominators. -/
lemma Complete.dominators_spec : ∃ doms, g.dominators = .ok doms ∧ doms.length = g.size ∧
    ∀ k d, d ∈ doms.getD k [] ↔ Dominates (Arrow g.edges) 0 d k := by
  obtain ⟨rest, post, hrest⟩ := c.reversePostorder_root reach
  have mem : ∀ k, k ∈ (Finset.range g.size).erase 0 ↔ k ∈ rest := fun k => by
    rw [hrest, Finset.mem_erase, Finset.mem_range, and_comm]
  have bound : ∀ k, ∀ d ∈ g.fullSets.getD k [], d < g.size := fun k d hd => by
    have hk : k < g.size := by simpa [fullSets, indices] using Arrow.lt hd
    rw [getD_fullSets hk] at hd
    split at hd
    · exact mem_singleton.mp hd ▸ c.pos
    · exact mem_range.mp hd
  have start : Descends g g.fullSets := by
    refine ⟨by simp [fullSets, indices], bound, fun _ _ => rfl, fun k d hd => ?_, fun k hk d hd => ?_⟩
    · rw [getD_fullSets (c.lt_of_reach hd.1)]
      split
      · next zero => exact mem_singleton.mpr (zero ▸ hd).eq_root
      · exact mem_range.mpr (c.lt_of_reach hd.reach)
    · obtain ⟨nonzero, lt⟩ := Finset.mem_erase.mp hk
      rw [getD_fullSets (Finset.mem_range.mp lt), if_neg nonzero]
      obtain ⟨some, all⟩ | rfl := hd
      · obtain ⟨p, hp⟩ := exists_mem_of_ne_nil _ some
        exact mem_range.mpr (bound p d (all p hp))
      · exact mem_range.mpr (Finset.mem_range.mp lt)
  have enough : total g g.fullSets < g.size * g.size + g.size + 2 := by
    have le : total g g.fullSets ≤ ((Finset.range g.size).erase 0).card * g.size := by
      refine Finset.sum_le_card_nsmul _ _ _ fun k hk => (toFinset_card_le _).trans ?_
      obtain ⟨nonzero, lt⟩ := Finset.mem_erase.mp hk
      rw [getD_fullSets (Finset.mem_range.mp lt), if_neg nonzero]
      simp [indices]
    have card := Finset.card_le_card (Finset.erase_subset 0 (Finset.range g.size))
    have product := Nat.mul_le_mul_right g.size card
    rw [Finset.card_range] at product
    omega
  obtain ⟨doms, run, h, solved⟩ := start.settle c reach (fun k hk => (mem k).mpr hk) enough
  have root : ∀ d ∈ doms.getD 0 [], d = 0 := fun d hd => by
    rw [h.descent.fixed 0 (by simp), getD_fullSets c.pos] at hd
    exact mem_singleton.mp hd
  refine ⟨doms, Outcome.ok_bind post run, h.length, fun k d => ⟨fun hd => ?_, h.descent.covers k d⟩⟩
  have all : ∀ k, Reach (Arrow g.edges) 0 k → k = 0 ∨ k ∈ (Finset.range g.size).erase 0 := fun k hk => by
    have lt := c.lt_of_reach hk
    simp only [Finset.mem_erase, Finset.mem_range]
    omega
  exact (h.descent.exact (fun _ _ => c.arrow_preds) all root (fun k hk => solved k ((mem k).mp hk))
    (reach k (h.length ▸ Arrow.lt hd))).mp hd

end Rounds

section Tables

variable {f : Nat → List Nat}

lemma mem_getD_range : i ∈ ((List.range n).map f).getD k [] ↔ k < n ∧ i ∈ f k := by
  by_cases hk : k < n <;> simp [hk]

lemma mem_dominatedBy :
    i ∈ (dominatedBy doms).getD d [] ↔ d < doms.length ∧ d ∈ doms.getD i [] := by
  rw [dominatedBy, mem_getD_range, mem_filter, mem_range, contains_eq_mem,
    decide_eq_true_eq]
  exact and_congr_right fun _ => and_iff_right_of_imp Arrow.lt

lemma mem_frontiers : i ∈ (g.frontiers doms).getD k [] ↔ k < g.size ∧ i < g.size ∧
    (∃ p ∈ g.preds.getD i [], k ∈ doms.getD p []) ∧ (k = i ∨ k ∉ doms.getD i []) := by
  simp only [frontiers, indices, mem_getD_range, mem_filter, mem_range,
    contains_eq_mem, decide_eq_true_eq, Members.mem_unionAll, mem_map,
    exists_exists_and_eq_and, Bool.or_eq_true, beq_iff_eq, Bool.not_eq_true', decide_eq_false_iff_not]

lemma mem_treeOf {ps : List (Option Nat)} {p : Option Nat} :
    k ∈ (treeOf ps).getD p [] ↔ ps[k]? = some p := by
  have steps : ∀ (l : List (Option Nat × Nat)) (t : Table (Option Nat) (List Nat)),
      k ∈ (l.foldl (fun t e => t.alter e.1 fun ks => ks.getD [] ++ [e.2]) t).getD p [] ↔
        k ∈ t.getD p [] ∨ (p, k) ∈ l := by
    intro l
    induction l with
    | nil => simp
    | cons e l ih =>
      intro t
      rw [foldl_cons, ih, Table.getD_alter_append, mem_cons, ← or_assoc, Prod.ext_iff]
      refine or_congr_left ?_
      split
      · next same => simp [same]
      · next other => simp [other]
  rw [← mem_zipIdx_iff_getElem? (x := (p, k))]
  exact (steps ps.zipIdx .empty).trans (or_iff_right (by simp [Table.getD]))

end Tables

section Exact

variable {E : Nat → Nat → Prop} (exact : ∀ k d, d ∈ doms.getD k [] ↔ Dominates E 0 d k)
include exact

lemma isImmediate_iff (h : Dominates E 0 j i) : isImmediate doms i j = true ↔ Immediate E 0 j i := by
  have test : isImmediate doms i j = true ↔ i ≠ j ∧
      ∀ k < doms.length, k = j ∨ k = i ∨ ¬ Dominates E 0 j k ∨ ¬ Dominates E 0 k i := by
    simp only [isImmediate, Bool.and_eq_true, bne_iff_ne, ne_eq, all_eq_true, mem_range,
      Bool.or_eq_true, beq_iff_eq, Bool.not_eq_true', contains_eq_mem, decide_eq_false_iff_not,
      exact, or_assoc]
  rw [test]
  constructor
  · rintro ⟨ne, between⟩
    refine ⟨h, Ne.symm ne, fun x hx hxi => ?_⟩
    obtain hxj | hjx := hx.total h
    · exact hxj
    · have lt : x < doms.length := Arrow.lt ((exact x j).mpr hjx)
      obtain rfl | rfl | no | no := between x lt
      · exact hjx
      · exact absurd rfl hxi
      · exact absurd hjx no
      · exact absurd hx no
  · intro im
    refine ⟨im.ne.symm, fun k _ => ?_⟩
    by_contra no
    push Not at no
    obtain ⟨hkj, hki, hjk, hk⟩ := no
    exact hkj ((im.closest k hk hki).antisymm hjk)

/-- The search for an immediate dominator finds it for every block but the first. -/
lemma find_parent (reach : Reach E 0 i) (nonzero : i ≠ 0) :
    ∃ j, (sortNats (doms.getD i [])).find? (isImmediate doms i) = some j ∧ Immediate E 0 j i := by
  obtain ⟨j, hj, closest⟩ := exists_closest (E := E) (r := 0) (n := i)
    (l := (doms.getD i []).filter fun x => decide (x ≠ i))
    (fun x hx => (exact i x).mp (mem_of_mem_filter hx))
    (ne_nil_of_mem (a := 0) (mem_filter.mpr
      ⟨(exact i 0).mpr (.root reach), decide_eq_true nonzero.symm⟩))
  obtain ⟨hj, ne⟩ := mem_filter.mp hj
  have im : Immediate E 0 j i := ⟨(exact i j).mp hj, of_decide_eq_true ne, fun x hx hxi =>
    closest x (mem_filter.mpr ⟨(exact i x).mpr hx, decide_eq_true hxi⟩)⟩
  cases found : (sortNats (doms.getD i [])).find? (isImmediate doms i) with
  | none =>
    have no := find?_eq_none.mp found j (mem_mergeSort.mpr hj)
    exact absurd ((isImmediate_iff exact im.dominates).mpr im) no
  | some x =>
    have mem : x ∈ doms.getD i [] := mem_mergeSort.mp (mem_of_find?_eq_some found)
    have yes := (isImmediate_iff exact ((exact i x).mp mem)).mp (find?_some found)
    exact ⟨x, rfl, yes⟩

/-- Each block has a parent at its place: none for the first, the immediate dominator for others. -/
lemma getElem?_parents {p : Option Nat} (reach : ∀ k < doms.length, Reach E 0 k) :
    (parents doms)[i]? = some p ↔ i = 0 ∧ p = none ∨ ∃ j, p = some j ∧ Immediate E 0 j i := by
  have tail : ∀ m k, (List.range doms.length).tail[m]? = some k ↔ k = m + 1 ∧ k < doms.length := by
    intro m k
    rw [getElem?_tail, getElem?_eq_some_iff]
    simp only [length_range, getElem_range, exists_prop]
    omega
  have all : parents doms = none :: (List.range doms.length).tail.map fun i =>
      (sortNats (doms.getD i [])).find? (isImmediate doms i) := by
    rw [parents, ← filterMap_eq_map]
    refine congrArg _ (filterMap_congr fun i hi => ?_)
    obtain ⟨m, hm⟩ := mem_iff_getElem?.mp hi
    obtain ⟨rfl, lt⟩ := (tail m i).mp hm
    obtain ⟨j, hj, -⟩ := find_parent exact (reach _ lt) (Nat.succ_ne_zero m)
    rw [Function.comp_apply, hj, Option.map_some]
  rw [all]
  cases i with
  | zero =>
    have none : ¬ ∃ j, p = some j ∧ Immediate E 0 j 0 := by
      rintro ⟨j, -, im⟩
      exact im.ne im.dominates.eq_root
    simp [none, eq_comm]
  | succ m =>
    simp only [getElem?_cons_succ, getElem?_map, Option.map_eq_some_iff, tail,
      Nat.succ_ne_zero, false_and, false_or]
    constructor
    · rintro ⟨k, ⟨rfl, lt⟩, rfl⟩
      exact find_parent exact (reach _ lt) (Nat.succ_ne_zero m)
    · rintro ⟨j, rfl, im⟩
      have lt : m + 1 < doms.length := Arrow.lt ((exact _ j).mpr im.dominates)
      obtain ⟨j', found, im'⟩ := find_parent exact (reach _ lt) (Nat.succ_ne_zero m)
      exact ⟨m + 1, ⟨rfl, lt⟩, im.unique im' ▸ found⟩

end Exact

/-- Dominance is exact on every graph in which all blocks can be reached from the first, be it the
target of edges or not: the dominators of a block are the blocks on all routes to it, the blocks that
each block dominates are the inverse of this, the tree has each block below its immediate dominator,
and a block is in the frontier of those that dominate a predecessor of it, but not strictly the block
itself. -/
theorem dominance_exact {is : List Instr} (h : ofBody is = .ok g)
    (reach : ∀ k < g.size, Reach (Arrow g.edges) 0 k) :
    ∃ D, g.dominance = .ok D ∧ D.doms.length = g.size ∧ D.dominated.length = g.size ∧
      D.frontier.length = g.size ∧
      (∀ i < g.size, ∀ d, d ∈ D.doms.getD i [] ↔
        ∀ route, Route (Arrow g.edges) 0 i route → d ∈ route) ∧
      (∀ d i, i ∈ D.dominated.getD d [] ↔ d ∈ D.doms.getD i []) ∧
      (∀ i, i ∈ D.tree.getD none [] ↔ i = 0) ∧
      (∀ j i, i ∈ D.tree.getD (some j) [] ↔ Immediate (Arrow g.edges) 0 j i) ∧
      ∀ p i, i ∈ D.frontier.getD p [] ↔
        (∃ q, Arrow g.edges q i ∧ Dominates (Arrow g.edges) 0 p q) ∧
          ¬ (Dominates (Arrow g.edges) 0 p i ∧ p ≠ i) := by
  have c := complete_of_ofBody h
  obtain ⟨doms, run, length, exact⟩ := c.dominators_spec reach
  have parent := fun i p => getElem?_parents (i := i) (p := p) exact (length ▸ reach)
  refine ⟨_, Outcome.bind_eq_ok.mpr ⟨doms, run, rfl⟩, length, by simp [dominatedBy, length],
    by simp [frontiers, indices], fun i hi d => ?_, fun d i => ?_, fun i => ?_, fun j i => ?_,
    fun p i => ?_⟩
  · exact (exact i d).trans (dominates_iff (reach i hi))
  · refine mem_dominatedBy.trans (and_iff_right_of_imp fun hd => ?_)
    exact length ▸ c.lt_of_reach ((exact i d).mp hd).reach
  · exact mem_treeOf.trans ((parent i none).trans (by simp))
  · exact mem_treeOf.trans ((parent i (some j)).trans (by simp))
  · refine mem_frontiers.trans ?_
    simp only [exact]
    constructor
    · rintro ⟨-, -, ⟨q, hq, hp⟩, last⟩
      exact ⟨⟨q, c.arrow_preds.mp hq, hp⟩, fun strict => last.elim strict.2 (absurd strict.1)⟩
    · rintro ⟨⟨q, hq, hp⟩, last⟩
      refine ⟨c.lt_of_reach hp.reach, c.length ▸ c.closed q i hq, ⟨q, c.arrow_preds.mpr hq, hp⟩, ?_⟩
      by_cases eq : p = i
      · exact .inl eq
      · exact .inr fun hi => last ⟨hi, eq⟩

theorem dominance_exact_returning : ∃ g D, ofBody returning = .ok g ∧
    g.dominance = .ok D ∧ Arrow g.edges 1 0 ∧ Immediate (Arrow g.edges) 0 0 1 ∧
    1 ∈ D.tree.getD (some 0) [] := by
  obtain ⟨g, hg, edges, size⟩ : ∃ g, ofBody returning = .ok g ∧
      g.edges = [[1, 2], [0], []] ∧ g.size = 3 := ⟨_, rfl, rfl, rfl⟩
  have reach : ∀ k < g.size, Reach (Arrow g.edges) 0 k := by
    rw [size, edges]
    intro k hk
    obtain rfl | hk : k = 0 ∨ k ∈ [1, 2] := by simp; omega
    · exact .root
    · exact .step .root hk
  obtain ⟨D, hD, -, -, -, -, -, -, tree, -⟩ := dominance_exact hg reach
  have one : Immediate (Arrow g.edges) 0 0 1 := by
    refine ⟨.root (reach 1 (by omega)), by decide, fun x hx ne => ?_⟩
    exact hx.of_edge ne .root (by rw [edges]; decide)
  exact ⟨g, D, hg, hD, by rw [edges]; decide, one, (tree 0 1).mpr one⟩

end IndexGraph

end BrilKit
