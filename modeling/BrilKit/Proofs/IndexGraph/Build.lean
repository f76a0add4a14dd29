import BrilKit.IndexGraph.Build
import BrilKit.Proofs.Block.Split
import Mathlib.Data.List.GetD

/-!
# The edges of a graph over block numbers

Whatever body it is built from, a graph has a block, its edges lead to blocks, and the lists of
predecessors hold every edge once, from its other end.
-/

namespace BrilKit

open List Outcome

namespace IndexGraph

variable {next edges : List (List Nat)} {a b k n t : Nat} {d d' : Draft} {is : List Instr}
  {g : IndexGraph}

def Arrow (next : List (List Nat)) (a b : Nat) : Prop := b ∈ next.getD a []

instance : Decidable (Arrow next a b) := inferInstanceAs (Decidable (b ∈ next.getD a []))

def Closed (next : List (List Nat)) : Prop := ∀ a b, Arrow next a b → b < next.length

lemma Arrow.lt (h : Arrow next a b) : a < next.length := by
  by_contra ge
  simp [Arrow, ge] at h

lemma getD_record :
    (next.modify k (· ++ [t])).getD a [] =
      next.getD a [] ++ if a = k ∧ a < next.length then [t] else [] := by
  by_cases ha : a < next.length
  · by_cases hk : k = a <;> simp [ha, hk, Ne.symm]
  · simp [ha]

lemma arrow_record (h : Arrow (next.modify k (· ++ [t])) a b) : Arrow next a b ∨ b = t := by
  rw [Arrow, getD_record, mem_append] at h
  refine h.imp_right fun h => ?_
  split at h
  · simpa using h
  · cases h

/-- Edges between `n` nodes, where an edge may lead one step beyond the last. -/
structure Near (n : Nat) (edges : List (List Nat)) : Prop where
  length : edges.length = n
  arrows : ∀ a b, Arrow edges a b → b < n ∨ b = a + 1

lemma Near.record (h : Near n edges) (ht : t < n) : Near n (edges.modify k (· ++ [t])) where
  length := by rw [length_modify, h.length]
  arrows a b e := by
    obtain e | rfl := arrow_record e
    · exact h.arrows a b e
    · exact .inl ht

/-- What holds after `n` blocks have been read. -/
structure Draft.Fits (n : Nat) (d : Draft) : Prop where
  names : d.names.length = n
  labels : ∀ l t, d.labels.get? l = some t → t < n
  near : Near n d.edges

lemma Draft.Fits.jump {l : String} (h : d.Fits n) : (d.jump k l).Fits n := by
  unfold Draft.jump
  split
  · next target found => exact ⟨h.names, h.labels, h.near.record (h.labels _ _ found)⟩
  · exact ⟨h.names, h.labels, h.near⟩

lemma Draft.Fits.leave {b : Block} (h : d.Fits n) (hd : d.leave k b = .ok d') : d'.Fits n := by
  unfold Draft.leave at hd
  split at hd
  · cases hd
    exact h
  · split at hd
    · obtain ⟨ls, -, hd⟩ := of_bind hd
      cases hd
      exact List.foldlRecOn ls _ h fun d hd l _ => hd.jump
    · split at hd
      · cases hd
        refine ⟨h.names, h.labels, by simp [h.near.length], fun a b e => ?_⟩
        by_cases ha : k = a
        · subst ha
          have lt := e.lt
          rw [length_set] at lt
          exact .inr (by simpa [Arrow, lt] using e)
        · exact h.near.arrows a b (by simpa [Arrow, getElem?_set_ne ha] using e)
      · cases hd
        exact h

lemma Draft.Fits.take {b : Block} (h : d.Fits n) (hb : b ≠ []) (hd : d.take b = .ok d') :
    d'.Fits (n + 1) := by
  have near : Near (n + 1) (d.edges ++ [[]]) := by
    refine ⟨by simp [h.near.length], fun a c e => ?_⟩
    have old : Arrow d.edges a c := by
      by_cases ha : a < d.edges.length
      · rwa [Arrow, getD_append _ _ _ _ ha] at e
      · have lt := e.lt
        obtain rfl : a = d.edges.length := by
          rw [length_append, length_singleton] at lt
          omega
        simp [Arrow] at e
    exact (h.near.arrows a c old).imp_left (Nat.lt_succ_of_lt)
  have later : ∀ l t, d.labels.get? l = some t → t < n + 1 := fun l t found =>
    Nat.lt_succ_of_lt (h.labels l t found)
  obtain ⟨i, is, rfl⟩ := exists_cons_of_ne_nil hb
  unfold Draft.take at hd
  dsimp only [head?_cons] at hd
  split at hd
  · refine Draft.Fits.leave ⟨by simp [h.names], fun l t found => ?_, near⟩ hd
    rw [Table.get?_put] at found
    split at found
    · cases found
      exact h.names ▸ Nat.lt_succ_self _
    · exact later l t found
  · refine Draft.Fits.leave ?_ hd
    exact ⟨by simp [h.names], later, near⟩

lemma Draft.Fits.takes {bs : List Block} (h : d.Fits n) (hbs : ∀ b ∈ bs, b ≠ [])
    (hd : bs.foldlM Draft.take d = .ok d') : d'.Fits (n + bs.length) := by
  induction bs generalizing d n with
  | nil => exact foldlM_nil_eq_ok.mp hd ▸ h
  | cons b bs ih =>
    obtain ⟨c, hc, hd⟩ := foldlM_cons_eq_ok.mp hd
    have here := ih (h.take (hbs b (by simp)) hc) (fun b hb => hbs b (by simp [hb])) hd
    rwa [length_cons, Nat.add_comm bs.length 1, ← Nat.add_assoc]

lemma Draft.Fits.resolve (h : d.Fits n) (hd : d.resolve = .ok edges) : Near n edges := by
  refine foldlM_invariant (Near n) (fun e _ s t hs ht => ?_) hd h.near
  refine foldlM_invariant (Near n) (fun k _ s t hs ht => ?_) ht hs
  obtain ⟨target, found, ht⟩ := of_bind ht
  cases ht
  exact hs.record (h.labels _ _ (ofOption_eq_ok.mp found))

/-- The edge behind the last block, if there is one, is cut off. -/
lemma Near.trimLast {edges' : List (List Nat)} (h : Near n edges)
    (ht : trimLast n edges = .ok edges') : edges'.length = n ∧ 0 < n ∧ Closed edges' := by
  unfold IndexGraph.trimLast at ht
  split at ht
  · cases ht
  · next last hlast =>
    rw [getLast?_eq_getElem?, h.length] at hlast
    have pos : 0 < n := by
      by_contra zero
      simp [getElem?_eq_none (show edges.length ≤ n - 1 by rw [h.length]; omega)] at hlast
    have pick : edges.getD (n - 1) [] = last := by simp [hlast]
    have inside : ∀ a b, Arrow edges a b → a ≠ n - 1 → b < n := by
      intro a b e ha
      have lt := h.length ▸ e.lt
      obtain hb | rfl := h.arrows a b e <;> omega
    split at ht
    · cases ht
      refine ⟨by rw [length_set, h.length], pos, fun a b e => ?_⟩
      have lt := e.lt
      rw [length_set] at lt ⊢
      by_cases ha : edges.length - 1 = a
      · subst ha
        simp [Arrow, lt] at e
      · rw [h.length] at ha ⊢
        exact inside a b (by simpa [Arrow, h.length, getElem?_set_ne ha] using e) (Ne.symm ha)
    · next stays =>
      cases ht
      refine ⟨h.length, pos, fun a b e => ?_⟩
      rw [h.length]
      by_cases ha : a = n - 1
      · subst ha
        refine (h.arrows _ b e).resolve_right fun hb => stays ?_
        obtain rfl : b = n := by omega
        rw [Arrow, pick] at e
        simpa using e
      · exact inside a b e ha

/-- The edges of a graph as pairs, as often as they are there. -/
def arcs (next : List (List Nat)) : List (Nat × Nat) :=
  next.zipIdx.flatMap fun e => e.1.map fun t => (e.2, t)

lemma mem_arcs : (a, b) ∈ arcs next ↔ Arrow next a b := by
  simp only [arcs, mem_flatMap, mem_zipIdx_iff_getElem?, mem_map]
  constructor
  · rintro ⟨e, he, t, ht, rfl, rfl⟩
    simpa [Arrow, he] using ht
  · intro h
    simpa [Arrow, h.lt] using h

lemma reverse_eq : reverse edges =
    (arcs edges).foldl (fun preds e => preds.modify e.2 (· ++ [e.1])) (edges.map fun _ => []) := by
  rw [arcs, foldl_flatMap]
  simp only [foldl_map]
  rfl

lemma foldl_record (es : List (Nat × Nat)) (hb : b < next.length) :
    (es.foldl (fun preds e => preds.modify e.2 (· ++ [e.1])) next).getD b [] =
      next.getD b [] ++ (es.filter (·.2 = b)).map Prod.fst := by
  induction es generalizing next with
  | nil => simp
  | cons e es ih =>
    rw [foldl_cons, ih (by rwa [length_modify]), getD_record, filter_cons]
    by_cases he : e.2 = b
    · simp [he, hb]
    · simp [he, Ne.symm he]

lemma length_reverse : (reverse edges).length = edges.length := by
  rw [reverse_eq]
  refine List.foldlRecOn (motive := fun ps : List (List Nat) => ps.length = edges.length)
    (arcs edges) _ (by simp) fun ps h e _ => ?_
  rw [length_modify, h]

/-- What is in a graph that has been built. -/
structure Complete (g : IndexGraph) : Prop where
  pos : 0 < g.size
  length : g.edges.length = g.size
  closed : Closed g.edges
  preds_eq : ∀ b < g.size, g.preds.getD b [] = ((arcs g.edges).filter (·.2 = b)).map Prod.fst
  preds_length : g.preds.length = g.size

theorem complete_of_ofBody (h : ofBody is = .ok g) : Complete g := by
  obtain ⟨draft, hdraft, h⟩ := of_bind h
  obtain ⟨edges, hedges, h⟩ := of_bind h
  obtain ⟨edges', hedges', h⟩ := of_bind h
  cases h
  have init : Draft.Fits 0 {} :=
    ⟨rfl, fun _ _ found => (by cases found), rfl, fun _ _ e => (by simp [Arrow] at e)⟩
  have fits := init.takes (fun b hb => (Block.wellCut_of_mem_split hb).nonempty) hdraft
  rw [Nat.zero_add] at fits
  obtain ⟨length, pos, closed⟩ := (fits.resolve hedges).trimLast hedges'
  refine ⟨pos, length, closed, fun b hb => ?_, length_reverse.trans length⟩
  have hb : b < (edges'.map fun _ => ([] : List Nat)).length := by
    rw [length_map, length]
    exact hb
  rw [reverse_eq, foldl_record _ hb, getD_eq_getElem _ _ hb, getElem_map, nil_append]

namespace Complete

lemma arrow_preds (h : Complete g) : Arrow g.preds b a ↔ Arrow g.edges a b := by
  by_cases hb : b < g.size
  · rw [Arrow, h.preds_eq b hb]
    simp [mem_arcs]
  · refine ⟨fun e => absurd (h.preds_length ▸ e.lt) hb, fun e => absurd (h.closed a b e) ?_⟩
    rwa [h.length]

lemma closed_preds (h : Complete g) : Closed g.preds := fun b a e => by
  rw [h.preds_length, ← h.length]
  exact (h.arrow_preds.mp e).lt

end Complete

end IndexGraph

end BrilKit
