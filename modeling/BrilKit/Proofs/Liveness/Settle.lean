import BrilKit.Proofs.Liveness.Block
import BrilKit.Proofs.Liveness.Visit

/-!
# Visits until nothing changes

The first computation visits blocks backward from the exits: sets grow until they hold what is live.
If an exit can be reached from every block, what is left of each block at the end fits the sets that
are left.
-/

namespace BrilKit

open List

/-- A block from which control can come to a block without successors. -/
inductive FlowGraph.ReachesExit (g : FlowGraph) : Nat → Prop where
  | exit {k : Nat} {n : Node} : g[k]? = some n → n.succ = [] → ReachesExit g k
  | step {p q : Nat} : g.Edge p q → ReachesExit g q → ReachesExit g p

namespace Liveness

open FlowGraph

variable {g : FlowGraph} {s s' : State} {k p q : Nat} {x : String} {live live' : List String}
  {w : List String → Nat}

def names (g : FlowGraph) : List String := g.body.flatMap fun i => i.dest.toList ++ i.uses

lemma card_lt_of_not_same {α : Type} [DecidableEq α] {live live' : List α} (sub : live ⊆ live')
    (h : Members.same live live' = false) : live.toFinset.card < live'.toFinset.card := by
  refine Finset.card_lt_card (Finset.ssubset_iff_subset_ne.mpr ⟨fun x hx => ?_, fun e => ?_⟩)
  · rw [mem_toFinset] at hx ⊢
    exact sub hx
  · have same : Members.same live live' = true := Members.same_iff.mpr fun x => by
      rw [← mem_toFinset, e, mem_toFinset]
    rw [same] at h
    cases h

lemma card_le_of_subset (sub : live ⊆ names g) : live.toFinset.card ≤ (names g).length := by
  refine (Finset.card_le_card fun x hx => ?_).trans (toFinset_card_le _)
  rw [mem_toFinset] at hx ⊢
  exact sub hx

lemma weight_le (h : ∀ k < g.length, w (s.inAt k) ≤ (names g).length) :
    weight g w s ≤ g.length * (names g).length := by
  have := Finset.sum_le_card_nsmul (Finset.range g.length) (fun k => w (s.inAt k)) _
    fun k hk => h k (Finset.mem_range.mp hk)
  simpa [weight] using this

lemma potential_lt_bound (h : ∀ k < g.length, w (s.inAt k) ≤ (names g).length) :
    potential g w s < bound g := by
  have waiting := card_waiting_le (g := g) (s := s)
  have product := Nat.mul_le_mul (card_sources_le (g := g)) (weight_le h)
  have room : g.edgeCount * (g.length * (names g).length) ≤
      (g.length + 1) * ((names g).length + 2) * (g.edgeCount + 1) := by
    rw [Nat.mul_comm]
    exact Nat.mul_le_mul (Nat.mul_le_mul (Nat.le_succ _) (by omega)) (Nat.le_succ _)
  unfold potential bound
  change _ < (g.length + 1) * ((names g).length + 2) * (g.edgeCount + 1) + g.length + 2
  omega

section Growing

/-- The first computation on its way. -/
structure Growing (g : FlowGraph) (s : State) : Prop where
  pruning : s.pruning = false
  blocks : s.blocks = g.blocks
  below : ∀ k < g.length, s.inAt k ⊆ blockStart (s.blockAt k) (s.outAt k)
  named : ∀ k, s.inAt k ⊆ names g
  settled : ∀ k < g.length, s.touched.getD k true = true → k ∉ s.pending →
    blockStart (s.blockAt k) (s.outAt k) ⊆ s.inAt k
  reached : ∀ p q, Into g p q → s.touched.getD q true = true →
    s.touched.getD p true = true ∨ p ∈ s.pending
  exits : ∀ k < g.length, succOf g k = [] → s.touched.getD k true = true ∨ k ∈ s.pending

lemma inAt_initial : (State.initial g).inAt k = [] := by
  simp only [State.inAt, State.initial, getD_eq_getElem?_getD, getElem?_map]
  cases g[k]? <;> rfl

lemma setAt_initial {j : Nat} : (State.initial g).setAt k j = [] := by
  simp only [State.setAt, State.initial, getD_eq_getElem?_getD, getElem?_map]
  cases g[k]? with
  | none => rfl
  | some n =>
    simp only [Option.map_some, Option.getD_some, getElem?_map]
    cases n.succ[j]? <;> rfl

lemma mem_exitBlocks : k ∈ exitBlocks g ↔ k < g.length ∧ succOf g k = [] := by
  unfold exitBlocks succOf
  simp only [List.mem_reverse, List.mem_map, List.mem_filter, List.isEmpty_iff, Prod.exists,
    List.mem_zipIdx_iff_getElem?, exists_eq_right]
  constructor
  · rintro ⟨n, hn, hs⟩
    exact ⟨lt_of_getElem? hn, by simp [hn, hs]⟩
  · rintro ⟨hk, hs⟩
    exact ⟨_, getElem?_eq_getElem hk, by simpa [hk] using hs⟩

lemma nodup_exitBlocks : (exitBlocks g).Nodup := by
  unfold exitBlocks
  rw [nodup_reverse]
  have all : (g.zipIdx.map Prod.snd).Nodup := by
    rw [zipIdx_map_snd]
    exact nodup_range'
  exact List.Sublist.nodup (filter_sublist.map _) all

lemma consistent_initial : Consistent g (State.initial g) where
  blocks := by simp [State.initial, FlowGraph.blocks]
  ins := by simp [State.initial]
  outs := by simp [State.initial]
  touched := by simp [State.initial]
  pending k hk := (mem_exitBlocks.mp hk).1
  nodup := nodup_exitBlocks
  linked p j x := by simp [inAt_initial, setAt_initial]

lemma growing_initial : Growing g (State.initial g) where
  pruning := rfl
  blocks := rfl
  below k _ := by simp [inAt_initial]
  named k := by simp [inAt_initial]
  settled k hk touched := by simp [State.initial, hk] at touched
  reached p q hin touched := by
    obtain ⟨m, hm, -⟩ := hin
    simp [State.initial, lt_of_getElem? hm] at touched
  exits k hk hs := .inr (mem_exitBlocks.mpr ⟨hk, hs⟩)

variable (gr : Growing g s) (cs : Consistent g s) (cs' : Consistent g s')
  (hk : s.pending.head? = some k) (v : Visited g s k (s.result k).1 (s.result k).2 s')

include gr

lemma Growing.result : s.result k = (s.blockAt k, blockStart (s.blockAt k) (s.outAt k)) := by
  simp [State.result, gr.pruning]

lemma Growing.blockStart_named (cs : Consistent g s) :
    blockStart (s.blockAt k) (s.outAt k) ⊆ names g := by
  refine blockStart_subset (fun i hi x hx => ?_) fun x hx => ?_
  · rw [State.blockAt, gr.blocks, FlowGraph.blocks, getD_eq_getElem?_getD] at hi
    cases hn : g[k]? with
    | none => simp [hn] at hi
    | some n =>
      have mem : i ∈ g.body := mem_flatMap.mpr ⟨n, mem_of_getElem? hn, by simpa [hn] using hi⟩
      exact mem_flatMap.mpr ⟨i, mem, by simp [hx]⟩
  · obtain ⟨q, -, hx⟩ := cs.mem_outAt.mp hx
    exact gr.named q hx

include cs hk v

lemma Growing.visited_blocks : s'.blocks = s.blocks := by
  have hlt : k < s.blocks.length := cs.blocks ▸ cs.head_lt hk
  rw [v.blocks, gr.result]
  simp [State.blockAt, hlt]

lemma Growing.inAt_subset : s.inAt q ⊆ s'.inAt q := by
  have hlt := cs.head_lt hk
  by_cases e : q = k
  · subst e
    intro x hx
    rw [v.mem_inAt cs hlt, gr.result]
    exact gr.below q hlt hx
  · rw [v.inAt_other e]
    exact fun _ hx => hx

include cs'

lemma Growing.visited : Growing g s' := by
  have hlt := cs.head_lt hk
  have blocks := gr.visited_blocks cs hk v
  have blockAt : ∀ q, s'.blockAt q = s.blockAt q := fun q => by rw [State.blockAt, blocks]; rfl
  have here : ∀ x, x ∈ s'.inAt k ↔ x ∈ blockStart (s.blockAt k) (s.outAt k) := fun x => by
    rw [v.mem_inAt cs hlt, gr.result]
  have outs : ∀ q, s.outAt q ⊆ s'.outAt q := by
    intro q x hx
    obtain ⟨r, hr, hx⟩ := cs.mem_outAt.mp hx
    exact cs'.mem_outAt.mpr ⟨r, hr, gr.inAt_subset cs hk v hx⟩
  refine ⟨v.pruning.trans gr.pruning, blocks.trans gr.blocks, ?_, ?_, ?_, ?_, ?_⟩
  · intro q hq x hx
    rw [blockAt]
    refine blockStart_mono (outs q) ?_
    by_cases e : q = k
    · subst e
      exact (here x).mp hx
    · rw [v.inAt_other e] at hx
      exact gr.below q hq hx
  · intro q x hx
    by_cases e : q = k
    · subst e
      exact gr.blockStart_named cs ((here x).mp hx)
    · rw [v.inAt_other e] at hx
      exact gr.named q hx
  · intro q hq touched settled
    -- The sets behind a block that is not pending are those of before.
    have behind : s'.outAt q ⊆ s.outAt q := by
      intro x hx
      obtain ⟨r, hr, hx⟩ := cs'.mem_outAt.mp hx
      refine cs.mem_outAt.mpr ⟨r, hr, ?_⟩
      by_cases e : r = k
      · subst e
        cases same : Members.same (s.result r).2 (s.inAt r) with
        | true => exact (Members.same_iff.mp same x).mp ((v.mem_inAt cs hlt).mp hx)
        | false => exact absurd ((v.pending q).mpr (.inr ⟨hr, .inl same⟩)) settled
      · rwa [v.inAt_other e] at hx
    rw [blockAt]
    refine fun x hx => ?_
    have hx := blockStart_mono behind hx
    by_cases e : q = k
    · subst e
      exact (here x).mpr hx
    · rw [v.inAt_other e]
      refine gr.settled q hq (by rwa [v.touched_other e] at touched) (fun hmem => ?_) hx
      exact (v.pending_or hk hmem).elim e settled
  · intro p q hin touched
    by_cases e : p = k
    · exact .inl (e ▸ v.touched_self cs hlt)
    rw [v.touched_other e]
    by_cases e' : q = k
    · subst e'
      cases ht : s.touched.getD p true with
      | true => exact .inl rfl
      | false =>
        refine .inr ((v.pending p).mpr (.inr ⟨hin, .inr ?_⟩))
        rw [v.touched_other e, ht]
    · rw [v.touched_other e'] at touched
      exact (gr.reached p q hin touched).imp_right fun h => (v.pending_or hk h).resolve_left e
  · intro q hq hs
    by_cases e : q = k
    · exact .inl (e ▸ v.touched_self cs hlt)
    rw [v.touched_other e]
    exact (gr.exits q hq hs).imp_right fun h => (v.pending_or hk h).resolve_left e

end Growing

lemma exists_head (h : s.pending.isEmpty = false) : ∃ k, s.pending.head? = some k := by
  cases hp : s.pending with
  | nil => simp [hp] at h
  | cons k rest => exact ⟨k, rfl⟩

lemma Growing.step (edges : ∀ {p q}, Into g p q ↔ Edge g p q) (gr : Growing g s)
    (cs : Consistent g s) (more : s.pending.isEmpty = false) :
    ∃ s', visit g s = .ok s' ∧ (Consistent g s' ∧ Growing g s') ∧
      potential g (fun live => (names g).length - live.toFinset.card) s' <
        potential g (fun live => (names g).length - live.toFinset.card) s := by
  obtain ⟨k, hk⟩ := exists_head more
  obtain ⟨s', hs', cs', v⟩ := visit_visited cs edges.mp hk
  refine ⟨s', hs', ⟨cs', gr.visited cs cs' hk v⟩, v.potential_lt cs edges.mp hk fun changed => ?_⟩
  have hlt := cs.head_lt hk
  rw [gr.result] at changed ⊢
  have grown := card_lt_of_not_same (gr.below k hlt) (Members.same_comm.trans changed)
  have most := card_le_of_subset (gr.blockStart_named cs (k := k))
  dsimp only
  omega

/-- The sets computed hold what is live. -/
theorem compute_total (edges : ∀ {p q}, Into g p q ↔ Edge g p q)
    (exits : ∀ k < g.length, g.ReachesExit k) :
    ∃ s, compute g = .ok s ∧ Consistent g s ∧ s.blocks = g.blocks ∧ (∀ k, s.inAt k ⊆ names g) ∧
      ∀ k < g.length, blockStart (s.blockAt k) (s.outAt k) ⊆ s.inAt k := by
  have run : ∃ s, compute g = .ok s ∧ (Consistent g s ∧ Growing g s) ∧ s.pending.isEmpty = true :=
    Iterate.run_total (fun s => Consistent g s ∧ Growing g s) _
      (fun s inv more => inv.2.step edges inv.1 more) ⟨consistent_initial, growing_initial⟩
      (potential_lt_bound fun k _ => Nat.sub_le _ _)
  obtain ⟨s, hs, ⟨cs, gr⟩, final⟩ := run
  have done : s.pending = [] := by simpa using final
  have touched : ∀ k, g.ReachesExit k → s.touched.getD k true = true := by
    intro k h
    induction h with
    | @exit k n hn hs =>
      have hk := lt_of_getElem? hn
      simpa [done] using gr.exits k hk (by simp [succOf, hn, hs])
    | @step p q e _ ih => simpa [done] using gr.reached p q (edges.mpr e) ih
  exact ⟨s, hs, cs, gr.blocks, gr.named, fun k hk =>
    gr.settled k hk (touched k (exits k hk)) (by simp [done])⟩

section Shrinking

/-- The pruning on its way. -/
structure Shrinking (g : FlowGraph) (s : State) : Prop where
  pruning : s.pruning = true
  cleared : ∀ (k : Nat) n, g[k]? = some n →
    Cleared (s.outAt k) n.block (s.blockAt k) (s.inAt k)

variable (sh : Shrinking g s) (cs : Consistent g s) (cs' : Consistent g s')
  (hk : s.pending.head? = some k) (v : Visited g s k (s.result k).1 (s.result k).2 s')

include sh

lemma Shrinking.result : s.result k = pruneBlock (s.blockAt k) (s.outAt k) := by
  simp [State.result, sh.pruning]

include cs hk

lemma Shrinking.pruned : ∃ n, g[k]? = some n ∧
    Cleared (s.outAt k) n.block (s.result k).1 (s.result k).2 ∧ (s.result k).2 ⊆ s.inAt k := by
  have hlt := cs.head_lt hk
  refine ⟨_, getElem?_eq_getElem hlt, ?_⟩
  rw [sh.result]
  exact (sh.cleared k _ (getElem?_eq_getElem hlt)).pruned

include cs' v

lemma Shrinking.visited : Shrinking g s' := by
  have hlt := cs.head_lt hk
  obtain ⟨m, hm, cleared, fewer⟩ := sh.pruned cs hk
  have ins : ∀ q, s'.inAt q ⊆ s.inAt q := by
    intro q x hx
    by_cases e : q = k
    · subst e
      exact fewer ((v.mem_inAt cs hlt).mp hx)
    · rwa [v.inAt_other e] at hx
  have outs : ∀ q, s'.outAt q ⊆ s.outAt q := by
    intro q x hx
    obtain ⟨r, hr, hx⟩ := cs'.mem_outAt.mp hx
    exact cs.mem_outAt.mpr ⟨r, hr, ins r hx⟩
  refine ⟨v.pruning.trans sh.pruning, fun q n hn => ?_⟩
  by_cases e : q = k
  · subst e
    have block : s'.blockAt q = (s.result q).1 := by simp [State.blockAt, v.blocks, cs.blocks, hlt]
    obtain rfl := Option.mem_unique hm hn
    rw [block]
    exact cleared.mono (outs q) fun x hx => (v.mem_inAt cs hlt).mpr hx
  · have block : s'.blockAt q = s.blockAt q := by simp [State.blockAt, v.blocks, Ne.symm e]
    rw [block, v.inAt_other e]
    exact (sh.cleared q n hn).mono (outs q) fun _ hx => hx

end Shrinking

lemma Shrinking.step (edges : ∀ {p q}, Into g p q ↔ Edge g p q) (sh : Shrinking g s)
    (cs : Consistent g s) (more : s.pending.isEmpty = false) :
    ∃ s', visit g s = .ok s' ∧ (Consistent g s' ∧ Shrinking g s') ∧
      potential g (fun live => live.toFinset.card) s' <
        potential g (fun live => live.toFinset.card) s := by
  obtain ⟨k, hk⟩ := exists_head more
  obtain ⟨s', hs', cs', v⟩ := visit_visited cs edges.mp hk
  obtain ⟨n, -, -, fewer⟩ := sh.pruned cs hk
  exact ⟨s', hs', ⟨cs', sh.visited cs cs' hk v⟩,
    v.potential_lt cs edges.mp hk (card_lt_of_not_same fewer)⟩

lemma shrinking_beginPruning (cs : Consistent g s) (blocks : s.blocks = g.blocks)
    (labels : ∀ i ∈ g.body, i.isOp = false → i.dest = none)
    (stable : ∀ k < g.length, blockStart (s.blockAt k) (s.outAt k) ⊆ s.inAt k) :
    Consistent g s.beginPruning ∧ Shrinking g s.beginPruning := by
  refine ⟨⟨cs.blocks, cs.ins, cs.outs, cs.touched, fun k hk => ?_, ?_, cs.linked⟩, rfl,
    fun k n hn => ?_⟩
  · simpa [State.beginPruning, cs.blocks] using hk
  · exact nodup_reverse.mpr nodup_range
  · have block : s.blockAt k = n.block := by simp [State.blockAt, blocks, FlowGraph.blocks, hn]
    have whole : Cleared (s.outAt k) n.block n.block (blockStart n.block (s.outAt k)) :=
      .refl fun i hi => labels i (mem_flatMap.mpr ⟨n, mem_of_getElem? hn, hi⟩)
    show Cleared (s.outAt k) n.block (s.blockAt k) (s.inAt k)
    rw [block]
    exact whole.mono (fun _ hx => hx) (block ▸ stable k (lt_of_getElem? hn))

/-- What is left of the blocks fits the sets that are left. -/
theorem prune_total (edges : ∀ {p q}, Into g p q ↔ Edge g p q)
    (exits : ∀ k < g.length, g.ReachesExit k)
    (labels : ∀ i ∈ g.body, i.isOp = false → i.dest = none) :
    ∃ s, prune g = .ok s ∧ Consistent g s ∧ ∀ (k : Nat) n, g[k]? = some n →
      Cleared (s.outAt k) n.block (s.blockAt k) (s.inAt k) := by
  obtain ⟨u, hu, cs, blocks, named, stable⟩ := compute_total edges exits
  have within : potential g (fun live => live.toFinset.card) u.beginPruning < pruningBound g := by
    refine (potential_lt_bound fun k _ => card_le_of_subset (named k)).trans_le ?_
    exact Nat.le_mul_of_pos_right _ (by omega)
  obtain ⟨s, hs, inv, -⟩ := Iterate.run_total (fun s => Consistent g s ∧ Shrinking g s) _
    (fun s inv more => inv.2.step edges inv.1 more)
    (shrinking_beginPruning cs blocks labels stable) within
  exact ⟨s, Outcome.ok_bind hu hs, inv.1, inv.2.cleared⟩

end Liveness

end BrilKit
