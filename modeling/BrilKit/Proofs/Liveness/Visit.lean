import BrilKit.Liveness.Combined
import BrilKit.Proofs.FlowGraph.Build
import Mathlib

/-!
# Visits to blocks

The live variables of a graph are computed by visits to pending blocks. `visit_visited` says that a
visit succeeds, what it changes (`Visited`), and that the parts of the state stay in step with each
other (`Consistent`).

`Visited.potential_lt` bounds the number of visits: `potential` counts the blocks that are pending
and, for every change of a set that is still possible, the blocks that it can make pending. It falls
with every visit if every change of a set lowers the weight of the set.
-/

namespace BrilKit

open List Outcome

namespace Liveness

open FlowGraph

variable {g : FlowGraph} {s s' : State} {k p q : Nat} {x : String} {live : List String} {b : Block}

namespace State

def inAt (s : State) (k : Nat) : List String := s.ins.getD k []

/-- The set that a block has for one of its outgoing edges. -/
def setAt (s : State) (k j : Nat) : List String := (s.outs.getD k []).getD j []

def outAt (s : State) (k : Nat) : List String := Members.unionAll (s.outs.getD k [])

def blockAt (s : State) (k : Nat) : Block := s.blocks.getD k []

def result (s : State) (k : Nat) : Block × List String :=
  if s.pruning then pruneBlock (s.blockAt k) (s.outAt k)
  else (s.blockAt k, blockStart (s.blockAt k) (s.outAt k))

lemma mem_outAt : x ∈ s.outAt k ↔ ∃ j, x ∈ s.setAt k j := by
  unfold outAt setAt
  rw [Members.mem_unionAll]
  generalize s.outs.getD k [] = sets
  constructor
  · rintro ⟨t, ht, hx⟩
    obtain ⟨j, hj⟩ := mem_iff_getElem?.mp ht
    exact ⟨j, by simpa [hj] using hx⟩
  · rintro ⟨j, hx⟩
    rw [getD_eq_getElem?_getD] at hx
    cases hj : sets[j]? with
    | none => simp [hj] at hx
    | some t => exact ⟨t, mem_of_getElem? hj, by simpa [hj] using hx⟩

end State

def succOf (g : FlowGraph) (k : Nat) : List Nat := (g[k]?.map Node.succ).getD []

lemma edge_iff : Edge g p q ↔ q ∈ succOf g p := by
  unfold Edge succOf
  cases h : g[p]? <;> simp

/-- All parts of a state are about the blocks of the graph, and the sets of a block for its outgoing
edges are those at the starts of its successors. -/
structure Consistent (g : FlowGraph) (s : State) : Prop where
  blocks : s.blocks.length = g.length
  ins : s.ins.length = g.length
  outs : s.outs.map List.length = g.map fun n => n.succ.length
  touched : s.touched.length = g.length
  pending : ∀ k ∈ s.pending, k < g.length
  nodup : s.pending.Nodup
  linked : ∀ p j x, x ∈ s.setAt p j ↔ ∃ q, Into g p q ∧ j = (succOf g p).idxOf q ∧ x ∈ s.inAt q

lemma Consistent.head_lt (cs : Consistent g s) (hk : s.pending.head? = some k) : k < g.length :=
  cs.pending k (mem_of_mem_head? hk)

/-- Live behind a block is what is live at the start of a successor. -/
lemma Consistent.mem_outAt (cs : Consistent g s) :
    x ∈ s.outAt p ↔ ∃ q, Into g p q ∧ x ∈ s.inAt q := by
  rw [State.mem_outAt]
  constructor
  · rintro ⟨j, hx⟩
    obtain ⟨q, hq, -, hx⟩ := (cs.linked p j x).mp hx
    exact ⟨q, hq, hx⟩
  · rintro ⟨q, hq, hx⟩
    exact ⟨_, (cs.linked p _ x).mpr ⟨q, hq, rfl, hx⟩⟩

section Pass

/-- The state after a set has been passed on to some blocks. -/
structure Passed (g : FlowGraph) (k : Nat) (live : List String) (ps : List Nat) (s s' : State) :
    Prop where
  pruning : s'.pruning = s.pruning
  blocks : s'.blocks = s.blocks
  ins : s'.ins = s.ins
  touched : s'.touched = s.touched
  shape : s'.outs.map List.length = s.outs.map List.length
  pending : ∀ p, p ∈ s'.pending ↔ p ∈ s.pending ∨ p ∈ ps
  nodup : s.pending.Nodup → s'.pending.Nodup
  sets : ∀ p j, s'.setAt p j = if p ∈ ps ∧ j = (succOf g p).idxOf k then live else s.setAt p j

lemma mem_push : p ∈ (s.push q).pending ↔ p ∈ s.pending ∨ p = q := by
  unfold State.push
  split
  · next h =>
    constructor
    · exact .inl
    · rintro (h' | rfl)
      · exact h'
      · simpa using h
  · simp [or_comm]

lemma nodup_push (h : s.pending.Nodup) : (s.push q).pending.Nodup := by
  unfold State.push
  split
  · exact h
  · next hq => exact nodup_cons.mpr ⟨by simpa using hq, h⟩

lemma push_eq : s.push q = { s with pending := (s.push q).pending } := by
  unfold State.push
  split <;> rfl

lemma slot_of_mem {ns : List Nat} (h : k ∈ ns) : slot ns k = .ok (ns.idxOf k) := by
  rw [slot_eq_ok]
  cases e : ns.idxOf? k with
  | none => simp at e; exact absurd h e
  | some i => simp [idxOf_eq_getD_idxOf?, e]

/-- Passing a set on to one block succeeds. -/
lemma pass_passed (outs : s.outs.map List.length = g.map fun n => n.succ.length) (h : Edge g p k) :
    ∃ s', pass g k live s p = .ok s' ∧ Passed g k live [p] s s' := by
  obtain ⟨n, hn, hk⟩ := h
  have shape := congrArg (fun ls : List Nat => ls[p]?) outs
  simp only [getElem?_map, hn, Option.map_some, Option.map_eq_some_iff] at shape
  obtain ⟨sets, hsets, len⟩ := shape
  have hslot : n.succ.idxOf k < sets.length := by
    rw [len]
    exact idxOf_lt_length_of_mem hk
  have hsucc : succOf g p = n.succ := by simp [succOf, hn]
  refine ⟨{ s.push p with outs := s.outs.set p (sets.set (n.succ.idxOf k) live) }, ?_, ?_⟩
  · rw [push_eq]
    unfold pass
    rw [push_eq]
    refine ok_bind (itemAt_eq_ok.mpr hn) ?_
    refine ok_bind (slot_of_mem hk) ?_
    exact ok_bind (itemAt_eq_ok.mpr hsets) rfl
  · refine ⟨by rw [push_eq], by rw [push_eq], by rw [push_eq], by rw [push_eq], ?_, ?_, ?_, ?_⟩
    · apply ext_getElem?
      intro q
      simp only [getElem?_map, getElem?_set]
      split
      · next e =>
        subst e
        obtain ⟨hp, rfl⟩ := List.getElem?_eq_some_iff.mp hsets
        simp [hp]
      · rfl
    · simp [mem_push]
    · exact nodup_push
    · intro q j
      obtain ⟨hp, rfl⟩ := List.getElem?_eq_some_iff.mp hsets
      by_cases e : q = p
      · subst e
        by_cases ej : j = n.succ.idxOf k
        · simp [State.setAt, hp, hsucc, ej, hslot]
        · have ej' : n.succ.idxOf k ≠ j := fun h => ej h.symm
          simp [State.setAt, hp, hsucc, ej, ej']
      · have e' : p ≠ q := fun h => e h.symm
        simp [State.setAt, e, e']

/-- Passing a set on to several blocks, one after the other. -/
lemma foldlM_pass {ps : List Nat} (outs : s.outs.map List.length = g.map fun n => n.succ.length)
    (h : ∀ p ∈ ps, Edge g p k) :
    ∃ s', ps.foldlM (pass g k live) s = .ok s' ∧ Passed g k live ps s s' := by
  induction ps generalizing s with
  | nil => exact ⟨s, rfl, rfl, rfl, rfl, rfl, rfl, by simp, fun h => h, by simp⟩
  | cons p ps ih =>
    obtain ⟨u, hu, pu⟩ : ∃ u, pass g k live s p = .ok u ∧ Passed g k live [p] s u :=
      pass_passed outs (h p (by simp))
    obtain ⟨t, ht, pt⟩ := ih (pu.shape.trans outs) fun q hq => h q (by simp [hq])
    refine ⟨t, foldlM_cons_eq_ok.mpr ⟨u, hu, ht⟩, pt.pruning.trans pu.pruning,
      pt.blocks.trans pu.blocks, pt.ins.trans pu.ins, pt.touched.trans pu.touched,
      pt.shape.trans pu.shape, ?_, fun nd => pt.nodup (pu.nodup nd), ?_⟩
    · intro q
      rw [pt.pending, pu.pending]
      simp [or_assoc]
    · intro q j
      rw [pt.sets, pu.sets]
      by_cases e : j = (succOf g q).idxOf k
      · by_cases hq : q ∈ ps
        · simp [e, hq]
        · simp [e, hq]
      · simp [e]

/-- Blocks that were never visited are pending after the loop over predecessors. -/
lemma foldl_reach (ps : List Nat) :
    ps.foldl reach s = { s with pending := (ps.foldl reach s).pending } ∧
    (s.pending.Nodup → (ps.foldl reach s).pending.Nodup) ∧
    ∀ p, p ∈ (ps.foldl reach s).pending ↔
      p ∈ s.pending ∨ p ∈ ps ∧ s.touched.getD p true = false := by
  induction ps generalizing s with
  | nil => exact ⟨rfl, fun h => h, by simp⟩
  | cons q ps ih =>
    obtain ⟨same, nodup, pending⟩ := ih (s := reach s q)
    have first : reach s q = { s with pending := (reach s q).pending } := by
      unfold reach
      split
      · rfl
      · exact push_eq
    refine ⟨?_, fun nd => nodup ?_, fun p => ?_⟩
    · rw [foldl_cons]
      refine same.trans ?_
      rw [first]
    · unfold reach
      split
      · exact nd
      · exact nodup_push nd
    · rw [foldl_cons, pending, first, mem_cons]
      unfold reach
      cases touched : s.touched.getD q true with
      | true =>
        simp only [if_true]
        constructor
        · exact fun h => h.imp_right fun h => ⟨.inr h.1, h.2⟩
        · rintro (h | ⟨rfl | h, ht⟩)
          · exact .inl h
          · exact absurd (touched.symm.trans ht) (by simp)
          · exact .inr ⟨h, ht⟩
      | false =>
        simp only [Bool.false_eq_true, if_false, mem_push]
        constructor
        · rintro ((h | rfl) | h)
          · exact .inl h
          · exact .inr ⟨.inl rfl, touched⟩
          · exact .inr ⟨.inr h.1, h.2⟩
        · rintro (h | ⟨rfl | h, ht⟩)
          · exact .inl (.inl h)
          · exact .inl (.inr rfl)
          · exact .inr ⟨h, ht⟩

end Pass

section Visit

/-- What a visit to the next block does, by what it computes for the block. -/
structure Visited (g : FlowGraph) (s : State) (k : Nat) (b : Block) (live : List String)
    (s' : State) : Prop where
  pruning : s'.pruning = s.pruning
  blocks : s'.blocks = s.blocks.set k b
  touched : s'.touched = s.touched.set k true
  ins : s'.ins = if Members.same live (s.inAt k) then s.ins else s.ins.set k live
  pending : ∀ p, p ∈ s'.pending ↔ p ∈ s.pending.tail ∨
    Into g p k ∧ (Members.same live (s.inAt k) = false ∨ s'.touched.getD p true = false)

namespace Visited

variable (cs : Consistent g s) (v : Visited g s k b live s')

include v

lemma inAt_other (h : q ≠ k) : s'.inAt q = s.inAt q := by
  unfold State.inAt
  rw [v.ins]
  split
  · rfl
  · simp [Ne.symm h]

lemma touched_other (h : q ≠ k) : s'.touched.getD q true = s.touched.getD q true := by
  simp [v.touched, Ne.symm h]

lemma pending_or (hk : s.pending.head? = some k) (h : p ∈ s.pending) : p = k ∨ p ∈ s'.pending := by
  obtain ⟨rest, hrest⟩ := head?_eq_some_iff.mp hk
  rw [hrest] at h
  obtain rfl | h := mem_cons.mp h
  · exact .inl rfl
  · exact .inr ((v.pending p).mpr (.inl (by simpa [hrest] using h)))

include cs

lemma touched_self (hk : k < g.length) : s'.touched.getD k true = true := by
  simp [v.touched, cs.touched, hk]

lemma mem_inAt (hk : k < g.length) : x ∈ s'.inAt k ↔ x ∈ live := by
  unfold State.inAt
  rw [v.ins]
  split
  · next h => exact (Members.same_iff.mp h x).symm
  · simp [cs.ins, hk]

end Visited

/-- Blocks are processed without an error. -/
lemma process_eq (cs : Consistent g s) (hk : k < g.length) : s.process k = .ok (s.result k) := by
  have hb : s.blocks[k]? = some (s.blockAt k) := by
    have := cs.blocks ▸ hk
    simp [State.blockAt, this]
  have ho : s.outs[k]? = some (s.outs.getD k []) := by
    have len : s.outs.length = g.length := by simpa using congrArg List.length cs.outs
    have := len ▸ hk
    simp [this]
  unfold State.process State.liveOut
  simp [itemAt_eq_ok.mpr hb, itemAt_eq_ok.mpr ho]
  rfl

lemma lt_of_edge (h : Edge g p q) : p < g.length := by
  obtain ⟨n, hn, -⟩ := h
  exact lt_of_getElem? hn

/-- The sets for outgoing edges after a set has been passed on to all predecessors. -/
lemma linked_of_passed {ps : List Nat} (cs : Consistent g s)
    (edges : ∀ {p q}, Into g p q → Edge g p q) (hk : k < g.length) (hps : ∀ p, p ∈ ps ↔ Into g p k)
    (sets : ∀ p j, s'.setAt p j =
      if p ∈ ps ∧ j = (succOf g p).idxOf k then live else s.setAt p j)
    (ins : s'.ins = s.ins.set k live) (p j : Nat) (x : String) :
    x ∈ s'.setAt p j ↔ ∃ q, Into g p q ∧ j = (succOf g p).idxOf q ∧ x ∈ s'.inAt q := by
  have here : s'.inAt k = live := by simp [State.inAt, ins, cs.ins, hk]
  have there : ∀ q, q ≠ k → s'.inAt q = s.inAt q := fun q hq => by
    simp [State.inAt, ins, Ne.symm hq]
  rw [sets]
  split
  · next h =>
    obtain ⟨hmem, rfl⟩ := h
    have hin := (hps p).mp hmem
    constructor
    · intro hx
      exact ⟨k, hin, rfl, by rwa [here]⟩
    · rintro ⟨q, hq, e, hx⟩
      -- Different successors have different slots.
      obtain rfl := (idxOf_inj (edge_iff.mp (edges hin))).mp e
      rwa [here] at hx
  · next h =>
    have away : ∀ {q}, Into g p q → j = (succOf g p).idxOf q → q ≠ k := by
      rintro q hq e rfl
      exact h ⟨(hps p).mpr hq, e⟩
    rw [cs.linked]
    constructor
    · rintro ⟨q, hq, e, hx⟩
      exact ⟨q, hq, e, by rwa [there q (away hq e)]⟩
    · rintro ⟨q, hq, e, hx⟩
      exact ⟨q, hq, e, by rwa [there q (away hq e)] at hx⟩

/-- A visit succeeds and keeps the state consistent. -/
theorem visit_visited (cs : Consistent g s) (edges : ∀ {p q}, Into g p q → Edge g p q)
    (hk : s.pending.head? = some k) :
    ∃ s', visit g s = .ok s' ∧ Consistent g s' ∧
      Visited g s k (s.result k).1 (s.result k).2 s' := by
  obtain ⟨rest, hrest⟩ := head?_eq_some_iff.mp hk
  have hlt := cs.head_lt hk
  obtain ⟨n, hn⟩ : ∃ n, g[k]? = some n := ⟨_, getElem?_eq_getElem hlt⟩
  have hold : s.ins[k]? = some (s.inAt k) := by
    have := cs.ins ▸ hlt
    simp [State.inAt, this]
  have hpred : ∀ p, p ∈ n.pred ↔ Into g p k := fun p => by simp [Into, hn]
  have nd : rest.Nodup := (nodup_cons.mp (hrest ▸ cs.nodup)).2
  have bounded : ∀ p, p ∈ rest ∨ p ∈ n.pred → p < g.length := by
    rintro p (hp | hp)
    · exact cs.pending p (by simp [hrest, hp])
    · exact lt_of_edge (edges ((hpred p).mp hp))
  generalize hr : s.result k = r
  obtain ⟨b, live⟩ := r
  let u : State :=
    { s with pending := rest, blocks := s.blocks.set k b, touched := s.touched.set k true }
  have start : visit g s = (if Members.same live (s.inAt k) then pure (n.pred.foldl reach u) else do
      let t ← n.pred.foldlM (pass g k live) u
      pure { t with ins := t.ins.set k live }) := by
    unfold visit
    rw [hrest]
    simp only [process_eq cs hlt, hr, itemAt_eq_ok.mpr hn, itemAt_eq_ok.mpr hold]
    rfl
  rw [start]
  cases same : Members.same live (s.inAt k) with
  | true =>
    obtain ⟨parts, nodup, pending⟩ := foldl_reach n.pred (s := u)
    generalize n.pred.foldl reach u = s' at parts nodup pending
    refine ⟨s', rfl, ?_, ?_⟩
    · refine ⟨?_, ?_, ?_, ?_, fun p hp => ?_, nodup nd, ?_⟩
      · rw [parts]
        simpa [u] using cs.blocks
      · rw [parts]
        exact cs.ins
      · rw [parts]
        exact cs.outs
      · rw [parts]
        simpa [u] using cs.touched
      · exact bounded p (((pending p).mp hp).imp_right And.left)
      · rw [parts]
        exact cs.linked
    · refine ⟨by rw [parts], by rw [parts], by rw [parts], by rw [parts, same]; rfl, fun p => ?_⟩
      rw [pending, hpred, parts, hrest, same]
      simp [u]
  | false =>
    obtain ⟨t, ht, ps⟩ : ∃ t, n.pred.foldlM (pass g k live) u = .ok t ∧ Passed g k live n.pred u t :=
      foldlM_pass cs.outs fun p hp => edges ((hpred p).mp hp)
    refine ⟨{ t with ins := t.ins.set k live }, ?_, ?_, ?_⟩
    · exact ok_bind ht rfl
    · refine ⟨?_, ?_, ps.shape.trans cs.outs, ?_, fun p hp => ?_, ps.nodup nd, ?_⟩
      · rw [ps.blocks]
        simpa [u] using cs.blocks
      · rw [ps.ins]
        simpa [u] using cs.ins
      · rw [ps.touched]
        simpa [u] using cs.touched
      · exact bounded p ((ps.pending p).mp hp)
      · exact linked_of_passed cs edges hlt hpred ps.sets (by rw [ps.ins])
    · refine ⟨ps.pruning, ps.blocks, ps.touched, by rw [ps.ins, same]; rfl, fun p => ?_⟩
      rw [ps.pending, hpred, hrest, same]
      simp [u]

end Visit

section Potential

variable {w : List String → Nat}

/-- The blocks that are pending. -/
def waiting (g : FlowGraph) (s : State) : Finset Nat :=
  (Finset.range g.length).filter fun k => k ∈ s.pending ∨ s.touched.getD k true = false

/-- The blocks with successors. -/
def sources (g : FlowGraph) : Finset Nat := (Finset.range g.length).filter fun k => succOf g k ≠ []

/-- The sum of the weights of the sets at the starts of blocks. -/
def weight (g : FlowGraph) (w : List String → Nat) (s : State) : Nat :=
  ∑ k ∈ Finset.range g.length, w (s.inAt k)

/-- A bound for the visits that can still be made. -/
def potential (g : FlowGraph) (w : List String → Nat) (s : State) : Nat :=
  (waiting g s).card + (sources g).card * weight g w s

lemma edgeCount_eq : g.edgeCount = ∑ k ∈ Finset.range g.length, (succOf g k).length := by
  have start : ∀ (g : FlowGraph) (m : Nat), g.foldl (fun m n => m + n.succ.length) m =
      m + ∑ k ∈ Finset.range g.length, (succOf g k).length := by
    intro g
    induction g with
    | nil => simp
    | cons n g ih =>
      intro m
      rw [foldl_cons, ih, length_cons, Finset.sum_range_succ']
      simp [succOf]
      omega
  exact (start g 0).trans (Nat.zero_add _)

lemma card_sources_le : (sources g).card ≤ g.edgeCount := by
  rw [sources, Finset.card_filter, edgeCount_eq]
  refine Finset.sum_le_sum fun k _ => ?_
  split
  · next h => exact length_pos_iff.mpr h
  · exact Nat.zero_le _

lemma card_waiting_le : (waiting g s).card ≤ g.length := by
  simpa [waiting] using Finset.card_filter_le (Finset.range g.length) _

/-- A visit takes one visit away from those that can be made. -/
lemma Visited.potential_lt (v : Visited g s k b live s') (cs : Consistent g s)
    (edges : ∀ {p q}, Into g p q → Edge g p q) (hk : s.pending.head? = some k)
    (lighter : Members.same live (s.inAt k) = false → w live < w (s.inAt k)) :
    potential g w s' < potential g w s := by
  obtain ⟨rest, hrest⟩ := head?_eq_some_iff.mp hk
  have hlt := cs.head_lt hk
  have first : k ∈ waiting g s := by simp [waiting, hlt, hrest]
  have fewer := Finset.card_erase_add_one first
  have later : ∀ p, p ∈ s.pending.tail → p ≠ k ∧ p ∈ s.pending := by
    rintro p hp
    rw [hrest] at hp ⊢
    refine ⟨?_, mem_cons_of_mem k hp⟩
    rintro rfl
    exact (nodup_cons.mp (hrest ▸ cs.nodup)).1 hp
  have unvisited : ∀ p, s'.touched.getD p true = false → p ≠ k ∧ s.touched.getD p true = false := by
    intro p hp
    rw [v.touched] at hp
    have ne : p ≠ k := by
      rintro rfl
      simp [cs.touched, hlt] at hp
    exact ⟨ne, by simpa [Ne.symm ne] using hp⟩
  cases same : Members.same live (s.inAt k) with
  | true =>
    have sub : waiting g s' ⊆ (waiting g s).erase k := by
      intro p hp
      simp only [waiting, Finset.mem_filter, Finset.mem_range, v.pending, same] at hp
      simp only [waiting, Finset.mem_erase, Finset.mem_filter, Finset.mem_range]
      obtain ⟨hlt, (hp | ⟨-, hp⟩) | hp⟩ := hp
      · exact ⟨(later p hp).1, hlt, .inl (later p hp).2⟩
      · obtain ⟨ne, hp⟩ := unvisited p (by simpa using hp)
        exact ⟨ne, hlt, .inr hp⟩
      · obtain ⟨ne, hp⟩ := unvisited p hp
        exact ⟨ne, hlt, .inr hp⟩
    have same_weight : weight g w s' = weight g w s := by
      unfold weight State.inAt
      rw [v.ins, same]
      rfl
    have := Finset.card_le_card sub
    unfold potential
    rw [same_weight]
    omega
  | false =>
    have sub : waiting g s' ⊆ (waiting g s).erase k ∪ sources g := by
      intro p hp
      simp only [waiting, Finset.mem_filter, Finset.mem_range, v.pending] at hp
      simp only [waiting, sources, Finset.mem_union, Finset.mem_erase, Finset.mem_filter,
        Finset.mem_range]
      obtain ⟨hlt, (hp | ⟨hp, -⟩) | hp⟩ := hp
      · exact .inl ⟨(later p hp).1, hlt, .inl (later p hp).2⟩
      · exact .inr ⟨hlt, ne_nil_of_mem (edge_iff.mp (edges hp))⟩
      · obtain ⟨ne, hp⟩ := unvisited p hp
        exact .inl ⟨ne, hlt, .inr hp⟩
    have here : s'.inAt k = live := by
      have ins := v.ins
      rw [same] at ins
      simp [State.inAt, ins, cs.ins, hlt]
    have lower : weight g w s' < weight g w s := by
      refine Finset.sum_lt_sum (fun q _ => ?_) ⟨k, Finset.mem_range.mpr hlt, ?_⟩
      · by_cases e : q = k
        · rw [e, here]
          exact Nat.le_of_lt (lighter same)
        · rw [v.inAt_other e]
      · rw [here]
        exact lighter same
    have cards := (Finset.card_le_card sub).trans (Finset.card_union_le _ _)
    have := Nat.mul_le_mul_left (sources g).card lower
    unfold potential
    rw [Nat.mul_succ] at this
    omega

end Potential

end Liveness

end BrilKit
