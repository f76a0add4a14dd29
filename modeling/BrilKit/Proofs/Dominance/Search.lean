import BrilKit.Dominance.Basic
import BrilKit.Proofs.Block.Ahead
import BrilKit.Proofs.Dominance.Paths
import Mathlib.Data.Finset.Card
import Mathlib.Tactic.Tauto

/-!
# Edges turned round, and the nodes that can be reached

`invert` lists the predecessors of every node. `postorder` lists every node that can be reached from
the root, and each once.
-/

namespace BrilKit

open List Outcome Table

namespace FlowMap

variable {m inv succ out : FlowMap} {a b r : String} {ss : List String}
  {st st' : List String × List String}

def Edge (m : FlowMap) (a b : String) : Prop := b ∈ m.getD a []

instance : Decidable (m.Edge a b) := inferInstanceAs (Decidable (_ ∈ _))

lemma mem_keys_of_edge (h : m.Edge a b) : a ∈ m.keys := by
  by_contra hk
  simp [Edge, Table.getD, get?_eq_none.mpr hk] at h

/-- The edges of a map, one by one. -/
def pairs (m : FlowMap) : List (String × String) := m.entries.flatMap fun e => e.2.map (e.1, ·)

lemma mem_pairs_of_edge (h : m.Edge a b) : (a, b) ∈ m.pairs := by
  obtain ⟨ss, hss⟩ := mem_keys.mp (mem_keys_of_edge h)
  rw [Edge, Table.getD, hss] at h
  exact mem_flatMap.mpr ⟨(a, ss), mem_of_get? hss, mem_map_of_mem h⟩

lemma edge_of_mem_pairs (nd : m.keys.Nodup) {q : String × String} (h : q ∈ m.pairs) :
    m.Edge q.1 q.2 := by
  obtain ⟨e, he, h⟩ := mem_flatMap.mp h
  obtain ⟨b, hb, rfl⟩ := mem_map.mp h
  rwa [Edge, Table.getD, get?_of_mem nd he]

section Preds

variable {qs : List (String × String)}

lemma addPred_eq (h : b ∈ out.keys) :
    NamedBlocks.addPred out a b = .ok (out.put b (out.getD b [] ++ [a])) := by
  obtain ⟨ps, hps⟩ := mem_keys.mp h
  simp [NamedBlocks.addPred, Table.getD, hps]

/-- Edges can be recorded at targets that the map has. -/
lemma exists_addPreds (known : ∀ q ∈ qs, q.2 ∈ out.keys) :
    ∃ out' : FlowMap, qs.foldlM (fun out q => NamedBlocks.addPred out q.1 q.2) out = .ok out' ∧
      out'.keys = out.keys ∧
      ∀ b, out'.getD b [] = out.getD b [] ++ (qs.filter fun q => q.2 == b).map Prod.fst := by
  induction qs generalizing out with
  | nil => exact ⟨out, rfl, rfl, by simp⟩
  | cons q qs ih =>
    obtain ⟨key, known⟩ := forall_mem_cons.mp known
    have keys := keys_put_of_mem (a := out.getD q.2 [] ++ [q.1]) key
    obtain ⟨out', run, keys', get⟩ := ih (keys ▸ known)
    refine ⟨out', foldlM_cons_eq_ok.mpr ⟨_, addPred_eq key, run⟩, keys'.trans keys, fun b => ?_⟩
    rw [get]
    by_cases hb : b = q.2
    · simp [hb, getD_put_same]
    · simp [getD_put_other hb, Ne.symm hb]

lemma known_of_addPreds {out' : FlowMap}
    (h : qs.foldlM (fun out q => NamedBlocks.addPred out q.1 q.2) out = .ok out') :
    ∀ q ∈ qs, q.2 ∈ out.keys := by
  induction qs generalizing out with
  | nil => simp
  | cons q qs ih =>
    obtain ⟨mid, hq, h⟩ := foldlM_cons_eq_ok.mp h
    have key : q.2 ∈ out.keys := by
      by_contra no
      rw [NamedBlocks.addPred, get?_eq_none.mpr no] at hq
      cases hq
    cases hq.symm.trans (addPred_eq key)
    exact forall_mem_cons.mpr ⟨key, keys_put_of_mem key ▸ ih h⟩

lemma foldlM_addPreds (es : List (String × List String)) :
    es.foldlM (fun out e => e.2.foldlM (fun out s => NamedBlocks.addPred out e.1 s) out) out =
      (pairs ⟨es⟩).foldlM (fun out q => NamedBlocks.addPred out q.1 q.2) out := by
  induction es generalizing out with
  | nil => rfl
  | cons e es ih => simp only [pairs, foldlM_cons, flatMap_cons, foldlM_append, foldlM_map, ih]

end Preds

def Closed (m : FlowMap) : Prop := ∀ a b, m.Edge a b → b ∈ m.keys

lemma exists_invert (nd : m.keys.Nodup) (closed : m.Closed) : ∃ inv, m.invert = .ok inv := by
  have known : ∀ q ∈ m.pairs, q.2 ∈ (m.map fun _ => ([] : List String)).keys := fun q hq => by
    rw [keys_map]
    exact closed _ _ (edge_of_mem_pairs nd hq)
  obtain ⟨inv, run, -⟩ := exists_addPreds known
  exact ⟨inv, (foldlM_addPreds _).trans run⟩

/-- The predecessors of a node, in the order of the nodes. -/
lemma invert_eq (h : m.invert = .ok inv) : inv.keys = m.keys ∧ m.Closed ∧
    ∀ b, inv.getD b [] = (m.pairs.filter fun q => q.2 == b).map Prod.fst := by
  have h := (foldlM_addPreds _).symm.trans h
  have known := known_of_addPreds h
  obtain ⟨inv', run, keys, get⟩ := exists_addPreds known
  obtain rfl := Except.ok.inj (run.symm.trans h)
  refine ⟨keys.trans keys_map, fun a b e => ?_, fun b => ?_⟩
  · exact keys_map ▸ known (a, b) (mem_pairs_of_edge e)
  · rw [get, getD_map_nil, nil_append]

lemma mem_invert (h : m.invert = .ok inv) (nd : m.keys.Nodup) : a ∈ inv.getD b [] ↔ m.Edge a b := by
  rw [(invert_eq h).2.2 b, mem_map]
  constructor
  · rintro ⟨q, hq, rfl⟩
    obtain ⟨hq, hb⟩ := mem_filter.mp hq
    exact beq_iff_eq.mp hb ▸ edge_of_mem_pairs nd hq
  · exact fun e => ⟨(a, b), mem_filter.mpr ⟨mem_pairs_of_edge e, by simp⟩, rfl⟩

lemma nodup_invert (h : m.invert = .ok inv) (nd : m.keys.Nodup) (hs : ∀ n, (m.getD n []).Nodup) :
    (inv.getD b []).Nodup := by
  have distinct : m.pairs.Nodup := by
    refine nodup_flatMap.mpr ⟨fun e he => ?_, (pairwise_map.mp nd).imp fun hne => ?_⟩
    · have := hs e.1
      rw [Table.getD, get?_of_mem nd he] at this
      exact this.map fun _ _ => And.right ∘ Prod.mk.inj
    · simp only [Function.onFun, disjoint_left, mem_map, not_exists, not_and]
      rintro _ ⟨_, _, rfl⟩ _ _ e
      exact hne (Prod.mk.inj e).1.symm
  rw [(invert_eq h).2.2 b]
  refine (distinct.filter _).map_on fun x hx y hy e => Prod.ext e ?_
  rw [beq_iff_eq.mp (mem_filter.mp hx).2, beq_iff_eq.mp (mem_filter.mp hy).2]

/-- What a depth-first search adds to the nodes explored and to those left. -/
structure Extends (succ : FlowMap) (st st' : List String × List String) (new : List String) :
    Prop where
  out : st'.2 = st.2 ++ new
  nodup : new.Nodup
  explored : ∀ x, x ∈ st'.1 ↔ x ∈ st.1 ∨ x ∈ new
  fresh : ∀ x ∈ new, x ∉ st.1
  closed : ∀ x ∈ new, ∀ y, succ.Edge x y → y ∈ st'.1

lemma Extends.refl : Extends succ st st [] where
  out := by simp
  nodup := nodup_nil
  explored := by simp
  fresh := by simp
  closed := by simp

lemma Extends.trans {st'' : List String × List String} {new new' : List String}
    (h : Extends succ st st' new) (h' : Extends succ st' st'' new') :
    Extends succ st st'' (new ++ new') where
  out := by rw [h'.out, h.out, append_assoc]
  nodup := by
    refine nodup_append.mpr ⟨h.nodup, h'.nodup, ?_⟩
    rintro x hx y hy rfl
    exact h'.fresh x hy ((h.explored x).mpr (.inr hx))
  explored x := by rw [h'.explored, h.explored, mem_append, or_assoc]
  fresh x hx hs := by
    obtain hx | hx := mem_append.mp hx
    · exact h.fresh x hx hs
    · exact h'.fresh x hx ((h.explored x).mpr (.inl hs))
  closed x hx y e := by
    obtain hx | hx := mem_append.mp hx
    · exact (h'.explored y).mpr (.inl (h.closed x hx y e))
    · exact h'.closed x hx y e

def unexplored (m : FlowMap) (explored : List String) : Nat :=
  (m.keys.toFinset \ explored.toFinset).card

lemma unexplored_le {explored explored' : List String} (h : explored ⊆ explored') :
    unexplored succ explored' ≤ unexplored succ explored := by
  apply Finset.card_le_card
  apply Finset.sdiff_subset_sdiff (Finset.Subset.refl _)
  intro x hx
  rw [mem_toFinset] at hx ⊢
  exact h hx

lemma unexplored_lt {explored : List String} (hk : r ∈ succ.keys) (h : r ∉ explored) :
    unexplored succ (r :: explored) < unexplored succ explored := by
  apply Finset.card_lt_card
  rw [Finset.ssubset_iff_of_subset]
  · exact ⟨r, by simp [hk, h], by simp⟩
  · intro x hx
    simp only [Finset.mem_sdiff, mem_toFinset, mem_cons, not_or] at hx ⊢
    exact ⟨hx.1, hx.2.2⟩

/-- A search that may go as many levels down as there are unexplored nodes explores its root, and
only nodes that can be reached. -/
lemma exists_visit (closed : succ.Closed) {fuel : Nat} {root : String} (hroot : root ∈ succ.keys)
    (enough : unexplored succ st.1 < fuel) :
    ∃ st' new, visit succ fuel root st = .ok st' ∧ Extends succ st st' new ∧ root ∈ st'.1 ∧
      ∀ x ∈ new, Reach succ.Edge r root → Reach succ.Edge r x := by
  induction fuel generalizing root st with
  | zero => omega
  | succ fuel ih =>
    obtain ⟨explored, out⟩ := st
    replace enough : unexplored succ explored < fuel + 1 := enough
    rw [visit]
    by_cases hc : explored.contains root = true
    · exact ⟨_, [], if_pos hc, .refl, by simpa using hc, by simp⟩
    · have hnew : root ∉ explored := by simpa using hc
      have fewer := unexplored_lt hroot hnew
      -- The successors are searched one after the other, and the explored nodes stay explored.
      obtain ⟨st', run, ⟨new, ext, reach⟩, -, all⟩ := foldlM_marks
        (f := fun st s => visit succ fuel s st) (s := (root :: explored, out))
        (P := fun st => ∃ new, Extends succ (root :: explored, out) st new ∧
          ∀ x ∈ new, Reach succ.Edge r root → Reach succ.Edge r x)
        (Q := fun s st => s ∈ st.1) (fun s (hs : s ∈ succ.getD root []) st h => by
          obtain ⟨new, ext, reach⟩ := h
          have less : unexplored succ st.1 ≤ unexplored succ (root :: explored) :=
            unexplored_le fun x hx => (ext.explored x).mpr (.inl hx)
          obtain ⟨st', new', run, ext', mem, reach'⟩ := ih (closed root s hs)
            (Nat.lt_of_le_of_lt less (by omega))
          refine ⟨st', run, ⟨new ++ new', ext.trans ext', forall_mem_append.mpr ⟨reach, ?_⟩⟩, mem,
            fun y hy => (ext'.explored y).mpr (.inl hy)⟩
          exact fun x hx hr => reach' x hx (hr.step hs)) ⟨[], .refl, by simp⟩
      refine ⟨(st'.1, st'.2 ++ [root]), new ++ [root], ?_, ?_,
        (ext.explored root).mpr (.inl (by simp)), forall_mem_append.mpr ⟨reach, by simp⟩⟩
      · rw [if_neg hc]
        exact ok_bind (fetch_of_mem [] hroot) (ok_bind run rfl)
      · exact {
          out := by
            have e : st'.2 = out ++ new := ext.out
            simp [e]
          nodup := by
            rw [← concat_eq_append]
            exact ext.nodup.concat fun hr => ext.fresh root hr (by simp)
          explored := fun x => by
            rw [ext.explored]
            simp only [mem_cons, mem_append, not_mem_nil, or_false]
            tauto
          fresh := fun x hx hs => by
            obtain hx | rfl := by simpa using hx
            · exact ext.fresh x hx (by simp [hs])
            · exact hnew hs
          closed := fun x hx y e => by
            obtain hx | rfl := by simpa using hx
            · exact ext.closed x hx y e
            · exact all y e }

/-- The postorder lists the nodes that can be reached. -/
theorem exists_postorder (closed : succ.Closed) (hr : r ∈ succ.keys) :
    ∃ out, succ.postorder r = .ok out ∧ out.Nodup ∧ ∀ x, x ∈ out ↔ Reach succ.Edge r x := by
  have most : unexplored succ [] ≤ succ.size := by
    have := toFinset_card_le succ.keys
    simpa [unexplored, Table.keys, Table.size] using this
  have found : ∃ st new, visit succ (succ.size + 2) r ([], []) = .ok st ∧
      Extends succ ([], []) st new ∧ r ∈ st.1 ∧
      ∀ x ∈ new, Reach succ.Edge r r → Reach succ.Edge r x := by
    apply exists_visit closed hr
    show unexplored succ [] < succ.size + 2
    omega
  obtain ⟨st, new, hst, ext, hroot, reach⟩ := found
  have hout : st.2 = new := by simpa using ext.out
  have hexp : ∀ x, x ∈ st.1 ↔ x ∈ new := by simpa using ext.explored
  refine ⟨st.2, ok_bind hst rfl, hout ▸ ext.nodup, fun x => ?_⟩
  rw [hout]
  refine ⟨fun hx => reach x hx .root, fun hx => ?_⟩
  induction hx with
  | root => exact (hexp r).mp hroot
  | step _ e ih => exact (hexp _).mp (ext.closed _ ih _ e)

end FlowMap

namespace NamedBlocks

variable {t : NamedBlocks} {succ : FlowMap} {a b : String}

lemma successors_spec (h : t.successors = .ok succ) :
    succ.keys = t.keys ∧ ∀ n b, t.get? n = some b →
      ∃ ls, exits b = .ok ls ∧ succ.get? n = some ls := by
  obtain ⟨es, hes, h⟩ := of_bind h
  obtain rfl := pure_eq_ok.mp h
  exact mapM_entries (g := fun e => exits e.2) hes

lemma passesTo_iff_edge (h : t.successors = .ok succ) : t.PassesTo a b ↔ succ.Edge a b := by
  obtain ⟨keys, all⟩ := successors_spec h
  constructor
  · rintro ⟨c, ls, hc, hls, hb⟩
    obtain ⟨ls', hls', hget⟩ := all a c hc
    obtain rfl := Except.ok.inj (hls.symm.trans hls')
    simpa [FlowMap.Edge, Table.getD, hget] using hb
  · intro e
    obtain ⟨c, hc⟩ := mem_keys.mp (keys ▸ FlowMap.mem_keys_of_edge e)
    obtain ⟨ls, hls, hget⟩ := all a c hc
    exact ⟨c, ls, hc, hls, by simpa [FlowMap.Edge, Table.getD, hget] using e⟩

lemma exists_successors (nd : t.keys.Nodup) (targeted : t.Targeted) :
    ∃ succ, t.successors = .ok succ ∧ succ.Closed := by
  have each : ∀ e ∈ t.entries, ∃ e', (do return (e.1, ← exits e.2)) = Except.ok e' := by
    intro e he
    obtain ⟨ls, hls, -⟩ := targeted e.1 e.2 (get?_of_mem nd he)
    exact ⟨(e.1, ls), ok_bind hls rfl⟩
  obtain ⟨es, hes⟩ := mapM_total each
  have run : t.successors = .ok ⟨es⟩ := ok_bind hes rfl
  refine ⟨⟨es⟩, run, fun a b e => ?_⟩
  obtain ⟨c, ls, hc, hls, hb⟩ := (passesTo_iff_edge run).mpr e
  obtain ⟨ls', hls', within⟩ := targeted a c hc
  obtain rfl := Except.ok.inj (hls.symm.trans hls')
  exact (successors_spec run).1 ▸ within b hb

end NamedBlocks

end BrilKit
