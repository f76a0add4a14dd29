import BrilKit.Proofs.IndexGraph.Walk
import BrilKit.Sample.Programs
import Mathlib.Data.Finset.Card
import Mathlib.Data.Finset.Dedup

/-!
# Loops are the components with one way in

A walk along the edges leaves the blocks in an order; a second walk, against the edges and with
starts in the reverse of that order, finds the strongly connected components one by one. A component
of several blocks is a loop if a single edge leads into it.
-/

namespace BrilKit

open List

namespace IndexGraph

variable {next : List (List Nat)} {x y : Nat} {xs ys : List Nat} {g : IndexGraph}

lemma exists_leaving (path : Leads next x y) (hx : x ∈ xs) (hy : y ∉ xs) :
    ∃ u v, u ∈ xs ∧ v ∉ xs ∧ Leads next x u ∧ Arrow next u v ∧ Leads next v y := by
  induction path with
  | refl => exact absurd hx hy
  | @tail b c path e ih =>
    by_cases hb : b ∈ xs
    · exact ⟨b, c, hb, hy, path, e, .refl⟩
    · obtain ⟨u, v, hu, hv, before, edge, behind⟩ := ih hb
      exact ⟨u, v, hu, hv, before, edge, behind.tail e⟩

/-- A node with a path to one that was left later shares a cycle with one left no earlier than
that. -/
lemma Ordered.exists_between {between : List Nat} (h : Ordered next (xs ++ y :: between ++ x :: ys))
    (nodup : (xs ++ y :: between ++ x :: ys).Nodup)
    (all : ∀ u v, Arrow next u v → v ∈ xs ++ y :: between ++ x :: ys) (path : Leads next x y) :
    ∃ z ∈ xs ++ [y], Leads next x z ∧ Leads next z x := by
  -- The edge on which the path leaves what was left before `x` leads to a node left after `x`.
  induction hn : between.length using Nat.strong_induction_on generalizing x between ys with
  | h n ih =>
    have later : y ∉ x :: ys := fun hy => (nodup_append'.mp nodup).2.2 (by simp) hy
    obtain ⟨u, v, hu, hv, before, edge, behind⟩ := exists_leaving path (by simp) later
    have back : Leads next v x := by
      cases h.of_append with
      | cons here _ => exact (here u hu v edge).resolve_left hv
    have forth : Leads next x v := before.tail edge
    have cases : v ∈ xs ++ [y] ∨ v ∈ between := by
      have := all u v edge
      simp only [mem_append, mem_cons] at this hv ⊢
      tauto
    obtain hv | hv := cases
    · exact ⟨v, hv, forth, back⟩
    · obtain ⟨between₁, between₂, rfl⟩ := append_of_mem hv
      have parts : xs ++ y :: (between₁ ++ v :: between₂) ++ x :: ys =
          xs ++ y :: between₁ ++ v :: (between₂ ++ x :: ys) := by simp
      rw [parts] at h nodup all
      obtain ⟨z, hz, vz, zv⟩ := ih between₁.length (by simp at hn; omega) h nodup all behind rfl
      exact ⟨z, hz, forth.trans vz, zv.trans back⟩

/-- A strongly connected component: the blocks on common cycles with some block, and that block. -/
def IsComponent (g : IndexGraph) (c : Finset Nat) : Prop :=
  ∃ a < g.size, ∀ b, b ∈ c ↔ Leads g.edges a b ∧ Leads g.edges b a

lemma IsComponent.eq {c c' : Finset Nat} (h : IsComponent g c) (h' : IsComponent g c') (hx : x ∈ c)
    (hx' : x ∈ c') : c = c' := by
  obtain ⟨a, -, h⟩ := h
  obtain ⟨a', -, h'⟩ := h'
  obtain ⟨ax, xa⟩ := (h x).mp hx
  obtain ⟨ax', xa'⟩ := (h' x).mp hx'
  ext b
  rw [h, h']
  constructor
  · rintro ⟨ab, ba⟩
    exact ⟨ax'.trans (xa.trans ab), ba.trans (ax.trans xa')⟩
  · rintro ⟨ab, ba⟩
    exact ⟨ax.trans (xa'.trans ab), ba.trans (ax'.trans xa)⟩

/-- The edges that lead into a set of blocks from outside, as often as they are there. -/
def entering (g : IndexGraph) (c : Finset Nat) : List (Nat × Nat) :=
  (arcs g.edges).filter fun e => decide (e.1 ∉ c ∧ e.2 ∈ c)

/-- The edges that end in a list of nodes, gathered node by node. -/
lemma flatMap_perm (es : List (Nat × Nat)) (p : Nat → Bool) (nodup : xs.Nodup) :
    (xs.flatMap fun b => (((es.filter (·.2 = b)).map Prod.fst).filter p).map fun _ => b).Perm
      ((es.filter fun e => p e.1 && decide (e.2 ∈ xs)).map Prod.snd) := by
  induction xs with
  | nil => simp
  | cons b xs ih =>
    obtain ⟨fresh, nodup⟩ := nodup_cons.mp nodup
    have here : (((es.filter (·.2 = b)).map Prod.fst).filter p).map (fun _ => b) =
        (es.filter fun e => p e.1 && decide (e.2 = b)).map Prod.snd := by
      rw [filter_map, filter_filter, map_map]
      refine map_congr_left fun e he => ?_
      simp only [mem_filter, Bool.and_eq_true, decide_eq_true_eq] at he
      exact he.2.2.symm
    rw [flatMap_cons, here]
    refine (((ih nodup).append_left _).trans ?_)
    rw [← map_append]
    refine (List.Perm.trans ?_ (filter_append_perm (fun e => decide (e.2 = b))
      (es.filter fun e => p e.1 && decide (e.2 ∈ b :: xs)))).map Prod.snd
    rw [filter_filter, filter_filter]
    refine .of_eq (congrArg₂ _ (filter_congr fun e _ => ?_) (filter_congr fun e _ => ?_))
    · by_cases he : e.2 = b <;> simp [he]
    · by_cases he : e.2 = b
      · simp [he, fresh]
      · simp [he]

namespace Complete

lemma leads_preds (h : Complete g) : Leads g.preds y x ↔ Leads g.edges x y := by
  rw [Leads, ← Relation.reflTransGen_swap]
  have same : Function.swap (Arrow g.preds) = Arrow g.edges := by
    ext a b
    exact h.arrow_preds
  rw [same]

/-- Reverse postorder has every block once, and the first block first if it leads to the others. -/
lemma reversePostorder_spec (h : Complete g) :
    ∃ order, g.reversePostorder = .ok order ∧ order.Nodup ∧ Ordered g.edges order ∧
      (∀ x, x ∈ order ↔ x < g.size) ∧ ((∀ x < g.size, Leads g.edges 0 x) → order.head? = some 0) := by
  obtain ⟨events, run, nodup, ordered, mem, trees⟩ := walk_spec g.indices h.closed
    fun k hk => by rw [h.length]; exact mem_range.mp hk
  have all : ∀ x, x ∈ events.filterMap Event.left? ↔ x < g.size := by
    intro x
    rw [mem]
    constructor
    · rintro ⟨s, hs, path⟩
      rw [← h.length]
      exact h.closed.leads path (by rw [h.length]; exact mem_range.mp hs)
    · exact fun hx => ⟨x, mem_range.mpr hx, .refl⟩
  refine ⟨_, Outcome.ok_bind run rfl, nodup_reverse.mpr nodup, ordered,
    fun x => mem_reverse.trans (all x), fun leads => ?_⟩
  obtain ⟨n, hn⟩ := Nat.exists_eq_add_of_lt h.pos
  rw [head?_reverse]
  refine last_left ((List.range n).map Nat.succ) ?_
    (ne_nil_of_mem ((all 0).mpr h.pos)) fun x hx => leads x ((all x).mp hx)
  rwa [indices, hn, Nat.zero_add, range_succ_eq_map] at trees

/-- The trees against the edges, with starts in reverse postorder, are components. -/
lemma isComponent_of_isTree {order t : List Nat} (h : Complete g) (nodup : order.Nodup)
    (ordered : Ordered g.edges order) (all : ∀ x, x ∈ order ↔ x < g.size)
    (ht : IsTree g.preds order t) : IsComponent g t.toFinset := by
  obtain ⟨before, s, behind, rfl, last, tree⟩ := ht
  have fresh : ∀ p ∈ before, ¬ Leads g.edges s p := by
    simpa only [h.leads_preds] using ((tree s).mp (mem_of_getLast? last)).2
  refine ⟨s, (all s).mp (by simp), fun b => ?_⟩
  rw [mem_toFinset, tree]
  simp only [h.leads_preds]
  constructor
  · rintro ⟨path, first⟩
    have hb : b ∈ before ++ s :: behind := by
      refine (all b).mpr ?_
      obtain rfl | ⟨c, e, -⟩ := Relation.ReflTransGen.cases_head_iff.mp path
      · exact (all b).mp (by simp)
      · exact h.length ▸ e.lt
    obtain hb | hb := mem_append.mp hb
    · exact absurd .refl (first b hb)
    obtain rfl | hb := mem_cons.mp hb
    · exact ⟨.refl, .refl⟩
    · obtain ⟨between, behind, rfl⟩ := append_of_mem hb
      have parts : before ++ s :: (between ++ b :: behind) =
          before ++ s :: between ++ b :: behind := by simp
      rw [parts] at nodup ordered all
      obtain ⟨z, hz, bz, zb⟩ := ordered.exists_between nodup
        (fun u v e => (all v).mpr (h.length ▸ h.closed u v e)) path
      obtain hz | hz := mem_append.mp hz
      · exact absurd bz (first z hz)
      · obtain rfl := mem_singleton.mp hz
        exact ⟨zb, bz⟩
  · rintro ⟨sb, bs⟩
    exact ⟨bs, fun p hp bp => fresh p hp (sb.trans bp)⟩

/-- The groups that the second walk finds are the components, each one once. -/
lemma components_spec (h : Complete g) :
    ∃ order events, g.reversePostorder = .ok order ∧ walk g.preds order = .ok events ∧
      (∀ t ∈ groups [] events, t.Nodup) ∧ ((groups [] events).map List.toFinset).Nodup ∧
      ∀ c, c ∈ (groups [] events).map List.toFinset ↔ IsComponent g c := by
  obtain ⟨order, post, once, ordered, all, -⟩ := h.reversePostorder_spec
  obtain ⟨events, run, nodup, -, mem, trees⟩ := walk_spec order h.closed_preds
    fun k hk => h.preds_length ▸ (all k).mp hk
  have flat : (groups [] events).flatten = events.filterMap Event.left? := flatten_groups
  rw [← flat, nodup_flatten] at nodup
  have component : ∀ t ∈ groups [] events, IsComponent g t.toFinset := fun t ht =>
    h.isComponent_of_isTree once ordered all (trees t ht)
  refine ⟨order, events, post, run, nodup.1, ?_, fun c => ⟨fun hc => ?_, fun hc => ?_⟩⟩
  · rw [List.Nodup, pairwise_map]
    refine nodup.2.imp_of_mem fun {t t'} ht _ apart same => ?_
    obtain ⟨x, hx⟩ := exists_mem_of_ne_nil t (ne_nil_of_mem_groups ht)
    exact apart hx (by rwa [← mem_toFinset, ← same, mem_toFinset])
  · obtain ⟨t, ht, rfl⟩ := mem_map.mp hc
    exact component t ht
  · obtain ⟨a, ha, hcycle⟩ := id hc
    obtain ⟨t, ht, hat⟩ : ∃ t ∈ groups [] events, a ∈ t := by
      rw [← mem_flatten, flat, mem]
      exact ⟨a, (all a).mpr ha, .refl⟩
    have here : a ∈ c := (hcycle a).mpr ⟨.refl, .refl⟩
    exact mem_map.mpr ⟨t, ht, (component t ht).eq hc (mem_toFinset.mpr hat) here⟩

/-- The groups of more than one block among them. -/
lemma large_spec (h : Complete g) :
    ∃ order events large, g.reversePostorder = .ok order ∧ walk g.preds order = .ok events ∧
      (groups [] events).filter (fun c => decide (1 < c.length)) = large ∧
      (∀ t ∈ large, t.Nodup ∧ ∀ b ∈ t, b < g.size) ∧ (large.map List.toFinset).Nodup ∧
      ∀ c, c ∈ large.map List.toFinset ↔ IsComponent g c ∧ 1 < c.card := by
  obtain ⟨order, events, post, run, nodup, distinct, components⟩ := h.components_spec
  have card : ∀ t ∈ groups [] events, t.toFinset.card = t.length := fun t ht =>
    toFinset_card_of_nodup (nodup t ht)
  refine ⟨order, events, _, post, run, rfl, fun t ht => ?_,
    distinct.sublist (filter_sublist.map _), fun c => ?_⟩
  · obtain ⟨ht, -⟩ := mem_filter.mp ht
    obtain ⟨a, ha, cycle⟩ := (components t.toFinset).mp (mem_map_of_mem ht)
    refine ⟨nodup t ht, fun b hb => ?_⟩
    have path := ((cycle b).mp (mem_toFinset.mpr hb)).1
    exact h.length ▸ h.closed.leads path (h.length ▸ ha)
  · rw [← components c]
    constructor
    · intro hc
      obtain ⟨t, ht, rfl⟩ := mem_map.mp hc
      obtain ⟨ht, large⟩ := mem_filter.mp ht
      exact ⟨mem_map_of_mem ht, (card t ht).symm ▸ of_decide_eq_true large⟩
    · rintro ⟨hc, large⟩
      obtain ⟨t, ht, rfl⟩ := mem_map.mp hc
      exact mem_map_of_mem (mem_filter.mpr ⟨ht, decide_eq_true (card t ht ▸ large)⟩)

lemma ways_perm (h : Complete g) {t : List Nat} (nodup : t.Nodup) (bound : ∀ b ∈ t, b < g.size) :
    (t.flatMap fun b => ((g.preds.getD b []).filter fun p => !t.contains p).map fun _ => b).Perm
      ((entering g t.toFinset).map Prod.snd) := by
  have perm := flatMap_perm (arcs g.edges) (fun p => !t.contains p) nodup
  have same : (arcs g.edges).filter (fun e => !t.contains e.1 && decide (e.2 ∈ t)) =
      entering g t.toFinset := filter_congr fun e _ => by simp
  rw [same] at perm
  refine List.Perm.trans (.of_eq ?_) perm
  rw [List.flatMap, List.flatMap]
  exact congrArg _ (map_congr_left fun b hb => by rw [h.preds_eq b (bound b hb)])

/-- A group of blocks is a loop, its entrance first, if one edge enters it. -/
lemma loopOf_spec (h : Complete g) {t : List Nat} (nodup : t.Nodup) (bound : ∀ b ∈ t, b < g.size) :
    (g.loopOf t).FailsIff .notListed (entering g t.toFinset = []) ∧
    ∀ r, g.loopOf t = .ok r → (r.isSome ↔ (entering g t.toFinset).length = 1) ∧
      ∀ l, r = some l → l.Perm t ∧ ∃ e, entering g t.toFinset = [e] ∧ l.head? = some e.2 := by
  have perm := h.ways_perm nodup bound
  have length := perm.length_eq
  rw [length_map] at length
  unfold loopOf
  dsimp only
  split
  · next none =>
    rw [none] at length
    have empty := length_eq_zero_iff.mp length.symm
    exact ⟨⟨fun _ => rfl, fun no => absurd empty no⟩, fun r hr => by cases hr⟩
  · next b one =>
    rw [one] at length perm
    obtain ⟨e, he⟩ := length_eq_one_iff.mp length.symm
    have head : e.2 = b := by simpa [he, eq_comm] using perm
    have inside : b ∈ t := by
      have := he ▸ mem_singleton_self e
      simp only [entering, mem_filter, decide_eq_true_eq, mem_toFinset] at this
      exact head ▸ this.2.2
    refine ⟨⟨fun none => by simp [he] at none, fun _ => ⟨_, rfl⟩⟩, fun r hr => ?_⟩
    cases hr
    refine ⟨by simp [he], fun l hl => ?_⟩
    cases hl
    exact ⟨(perm_cons_erase inside).symm, e, he, by simp [head]⟩
  · next none one =>
    have some : entering g t.toFinset ≠ [] := fun empty =>
      none (length_eq_zero_iff.mp (by simpa [empty] using length))
    have several : (entering g t.toFinset).length ≠ 1 := fun single => by
      obtain ⟨b, hb⟩ := length_eq_one_iff.mp (length.trans single)
      exact one b hb
    refine ⟨⟨fun empty => absurd empty some, fun _ => ⟨_, rfl⟩⟩, fun r hr => ?_⟩
    cases hr
    exact ⟨by simpa using several, fun l hl => by cases hl⟩

/-- The loops among some groups, as sets, are the groups that one edge enters. -/
lemma mapM_loopOf_spec (h : Complete g) {ts : List (List Nat)} {rs : List (Option (List Nat))}
    (hts : ∀ t ∈ ts, t.Nodup ∧ ∀ b ∈ t, b < g.size) (run : ts.mapM g.loopOf = .ok rs) :
    (rs.filterMap id).map List.toFinset =
        (ts.filter fun t => decide ((entering g t.toFinset).length = 1)).map List.toFinset ∧
      ∀ l ∈ rs.filterMap id,
        l.Nodup ∧ ∃ e, entering g l.toFinset = [e] ∧ l.head? = some e.2 := by
  have all := Outcome.mapM_eq_ok.mp run
  clear run
  induction all with
  | nil => simp
  | @cons t r ts rs here _ ih =>
    obtain ⟨nodup, bound⟩ := hts t (by simp)
    obtain ⟨sets, heads⟩ := ih fun t ht => hts t (by simp [ht])
    obtain ⟨isSome, loop⟩ := (h.loopOf_spec nodup bound).2 r here
    cases r with
    | none =>
      have several : (entering g t.toFinset).length ≠ 1 := by simpa using isSome
      exact ⟨by simpa [several] using sets, by simpa using heads⟩
    | some l =>
      have one : (entering g t.toFinset).length = 1 := isSome.mp rfl
      obtain ⟨perm, e, he, head⟩ := loop l rfl
      have same : l.toFinset = t.toFinset := toFinset_eq_of_perm _ _ perm
      refine ⟨by simpa [one, same] using sets, forall_mem_cons.mpr ⟨?_, heads⟩⟩
      exact ⟨perm.nodup_iff.mpr nodup, e, same ▸ he, head⟩

end Complete

/-- The loops of a graph are the strongly connected components of several blocks that exactly one
edge enters, each one once and with the block first to which that edge leads. There is a fault if,
and only if, no edge enters one of these components. -/
theorem loops_exact {is : List Instr} (h : ofBody is = .ok g) :
    (g.loops = .error .notListed ↔ ∃ c, IsComponent g c ∧ 1 < c.card ∧ entering g c = []) ∧
    ((¬ ∃ c, IsComponent g c ∧ 1 < c.card ∧ entering g c = []) →
      ∃ ls, g.loops = .ok ls ∧ (ls.map List.toFinset).Nodup ∧
        (∀ c, c ∈ ls.map List.toFinset ↔
          IsComponent g c ∧ 1 < c.card ∧ (entering g c).length = 1) ∧
        ∀ l ∈ ls, l.Nodup ∧ ∃ e, entering g l.toFinset = [e] ∧ l.head? = some e.2) := by
  have complete := complete_of_ofBody h
  obtain ⟨order, events, large, post, run, select, fits, distinct, components⟩ :=
    complete.large_spec
  have fails : g.loops.FailsIff .notListed
      (∃ c, IsComponent g c ∧ 1 < c.card ∧ entering g c = []) := by
    refine .bind_ok post (.bind_ok run ?_)
    rw [select]
    refine ((Outcome.FailsIff.mapM fun t ht =>
      (complete.loopOf_spec (fits t ht).1 (fits t ht).2).1).bind fun _ _ _ => .of_ok rfl).congr ?_
    simp only [or_false, ← and_assoc, ← components]
    simp only [List.mem_map, exists_exists_and_eq_and]
  refine ⟨fails.eq_error_iff, fun none => ?_⟩
  obtain ⟨ls, hls⟩ := fails.2 none
  obtain ⟨order', post', hloops⟩ := Outcome.bind_eq_ok.mp hls
  cases post.symm.trans post'
  obtain ⟨events', run', hloops⟩ := Outcome.bind_eq_ok.mp hloops
  cases run.symm.trans run'
  obtain ⟨rs, each, hrs⟩ := Outcome.bind_eq_ok.mp hloops
  cases hrs
  rw [select] at each
  obtain ⟨sets, heads⟩ := complete.mapM_loopOf_spec fits each
  refine ⟨_, hls, ?_, fun c => ?_, heads⟩
  · rw [sets]
    exact distinct.sublist (List.filter_sublist.map _)
  · rw [sets, ← and_assoc, ← components]
    simp only [List.mem_map, List.mem_filter, decide_eq_true_eq]
    constructor
    · rintro ⟨t, ⟨ht, one⟩, rfl⟩
      exact ⟨⟨t, ht, rfl⟩, one⟩
    · rintro ⟨⟨t, ht, rfl⟩, one⟩
      exact ⟨t, ⟨ht, one⟩, rfl⟩

/-- A loop from which control returns. -/
def returning : List Instr :=
  [.labelled "a", Sample.branch "c" "b" "d", .labelled "b", .jump "a", .labelled "d",
    Sample.plain "ret"]

theorem loops_exact_round : ∃ g, ofBody (.jump "a" :: returning) = .ok g ∧
    g.loops = .ok [[1, 2]] ∧ IsComponent g {1, 2} ∧ entering g {1, 2} = [(0, 1)] := by
  obtain ⟨g, hg, hl, one⟩ : ∃ g, ofBody (.jump "a" :: returning) = .ok g ∧
      g.loops = .ok [[1, 2]] ∧ entering g {1, 2} = [(0, 1)] := ⟨_, rfl, rfl, rfl⟩
  obtain ⟨fault, found⟩ := loops_exact hg
  obtain ⟨ls, hls, -, sets, -⟩ := found fun none => by cases hl.symm.trans (fault.mpr none)
  cases hl.symm.trans hls
  exact ⟨g, hg, hl, ((sets {1, 2}).mp (by decide)).1, one⟩

end IndexGraph

end BrilKit
