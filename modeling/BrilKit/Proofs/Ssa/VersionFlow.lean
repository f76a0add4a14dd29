import BrilKit.Proofs.Ssa.Linking

/-!
# The flow of versions

Versions flow along the edges of a graph until nothing changes. `settleLinks_spec` says that in the
end the versions that come in at a block that control reaches are all those that can reach it.

`passVersions_spec` is the step along an edge: `HandedOn.of_same` if nothing new comes, and
`HandedOn.of_set` otherwise. `Sound` is the invariant of the flow. `Sound.visits` says what a visit
does, the lemmas of `Visits` say what this means for each part of the invariant, and `Sound.visit`
puts them together; `Sound.complete` concludes when nothing is pending.
-/

namespace BrilKit

open List Outcome

namespace Ssa

open FlowGraph

variable {g : FlowGraph} {bs : List Block} {k : Nat} {x : String} {force : Versions}

lemma Versions.get?_of_same {a b : Versions} (na : a.keys.Nodup) (h : a.same b = true)
    (x : String) : a.get? x = b.get? x := by
  obtain ⟨ha, hb⟩ | ⟨v, w, ha, hb, same⟩ := Table.get?_of_sameBy na h x
  · rw [ha, hb]
  · rw [ha, hb, eq_of_beq same]

namespace Linking

variable {s t u : Linking} {targets : List Nat}

def Plain (ins : List (List Versions)) : Prop := ∀ b j c, cell ins b j = some c → c.keys.Nodup

/-- What has been handed on from a block to others behind it. -/
structure HandedOn (g : FlowGraph) (k : Nat) (force : Versions) (targets : List Nat)
    (s t : Linking) : Prop where
  blocks : t.blocks = s.blocks
  pruning : t.pruning = s.pruning
  size : t.ins.length = s.ins.length
  pending : ∀ b ∈ s.pending, b ∈ t.pending
  fresh : ∀ b ∈ t.pending, b ∈ s.pending ∨ ∃ j, cell t.ins b j = some force
  tables : ∀ b : Nat, t.ins[b]? = s.ins[b]? ∨ b ∈ t.pending
  cells : ∀ b j c, cell t.ins b j = some c → cell s.ins b j = some c ∨ c = .empty ∨
    c = force ∧ b ∈ targets ∧ ∃ n, g[b]? = some n ∧ n.pred[j]? = some k
  kept : ∀ b j c, cell s.ins b j = some c → cell t.ins b j = some c ∨
    cell t.ins b j = some force ∧ ∃ n, g[b]? = some n ∧ n.pred[j]? = some k
  filled : ∀ b ∈ targets, ∃ n j c, g[b]? = some n ∧ n.pred.idxOf? k = some j ∧
    cell t.ins b j = some c ∧ ∀ x, c.get? x = force.get? x

lemma HandedOn.refl : HandedOn g k force [] s s where
  blocks := rfl
  pruning := rfl
  size := rfl
  pending _ h := h
  fresh _ h := .inl h
  tables _ := .inl rfl
  cells _ _ _ h := .inl h
  kept _ _ _ h := .inl h
  filled := by simp

lemma HandedOn.trans {b : Nat} (h : HandedOn g k force [b] s t)
    (h' : HandedOn g k force targets t u) : HandedOn g k force (b :: targets) s u where
  blocks := h'.blocks.trans h.blocks
  pruning := h'.pruning.trans h.pruning
  size := h'.size.trans h.size
  pending c hc := h'.pending c (h.pending c hc)
  fresh c hc := by
    obtain hc | hc := h'.fresh c hc
    · obtain hc | ⟨j, hj⟩ := h.fresh c hc
      · exact .inl hc
      · exact .inr ⟨j, (h'.kept c j force hj).elim id And.left⟩
    · exact .inr hc
  tables c := by
    obtain e' | hc := h'.tables c
    · exact (h.tables c).imp (e'.trans ·) (h'.pending c)
    · exact .inr hc
  cells c j v hv := by
    obtain hv | rfl | ⟨rfl, hc, hk⟩ := h'.cells c j v hv
    · obtain hv | rfl | ⟨rfl, hc, hk⟩ := h.cells c j v hv
      · exact .inl hv
      · exact .inr (.inl rfl)
      · exact .inr (.inr ⟨rfl, by simp_all, hk⟩)
    · exact .inr (.inl rfl)
    · exact .inr (.inr ⟨rfl, by simp [hc], hk⟩)
  kept c j v hv := by
    obtain hv | ⟨hv, hk⟩ := h.kept c j v hv
    · exact h'.kept c j v hv
    · exact .inr ⟨(h'.kept c j force hv).elim id And.left, hk⟩
  filled c hc := by
    obtain rfl | hc := mem_cons.mp hc
    · obtain ⟨n, j, v, hn, hj, hv, agree⟩ := h.filled c (by simp)
      obtain hv | ⟨hv, _⟩ := h'.kept c j v hv
      · exact ⟨n, j, v, hn, hj, hv, agree⟩
      · exact ⟨n, j, force, hn, hj, hv, fun _ => rfl⟩
    · exact h'.filled c hc

section Pass

variable {a b i j : Nat} {n : Node} {old : List Versions} {c : Versions}

/-- The tables of a block, which are empty ones as long as nothing has come to it. -/
def opened (n : Node) (old : List Versions) : List Versions :=
  if old.isEmpty then n.pred.map fun _ => .empty else old

section Cells

variable (hold : s.ins[b]? = some old)
include hold

/-- A table that opening a block has put there is empty. -/
lemma cell_of_opened (h : cell (s.ins.set b (opened n old)) a i = some c) :
    cell s.ins a i = some c ∨ c = .empty := by
  rw [cell_set hold] at h
  split at h
  · next e =>
    subst e
    rw [cell_of_getElem? hold]
    unfold opened at h
    split at h
    · obtain ⟨_, _, rfl⟩ := mem_map.mp (mem_of_getElem? h)
      exact .inr rfl
    · exact .inl h
  · exact .inl h

/-- Opening a block keeps the tables that are there. -/
lemma cell_opened (h : cell s.ins a i = some c) :
    cell (s.ins.set b (opened n old)) a i = some c := by
  rw [cell_set hold]
  split
  · next e =>
    subst e
    rw [cell_of_getElem? hold] at h
    unfold opened
    split
    · next none => simp [isEmpty_iff.mp none] at h
    · exact h
  · exact h

variable (hn : g[b]? = some n) (hj : n.pred.idxOf? k = some j)
include hn hj

/-- Versions that have come before are not handed on again. -/
lemma HandedOn.of_same (hx : ∃ x v, force.get? x = some v) (hc : (opened n old)[j]? = some c)
    (agree : ∀ x, c.get? x = force.get? x) :
    HandedOn g k force [b] s { s with ins := s.ins.set b (opened n old) } := by
  -- An empty table has no versions, so there was one before.
  have same : opened n old = old := by
    unfold opened at hc ⊢
    split at hc
    · obtain ⟨x, v, hv⟩ := hx
      obtain ⟨_, _, rfl⟩ := mem_map.mp (mem_of_getElem? hc)
      rw [← agree x] at hv
      cases hv
    · next some => rw [if_neg some]
  rw [same] at hc ⊢
  have ins : s.ins.set b old = s.ins := by
    obtain ⟨hb, rfl⟩ := List.getElem?_eq_some_iff.mp hold
    exact set_getElem_self hb
  rw [ins]
  exact { HandedOn.refl with
    cells := fun _ _ _ h => .inl h
    filled := fun a ha => by
      obtain rfl : a = b := by simpa using ha
      exact ⟨n, j, c, hn, hj, by rw [cell_of_getElem? hold, hc], agree⟩ }

/-- Versions that differ take the place of those before, and the block is to be visited. -/
lemma HandedOn.of_set (hlt : j < (opened n old).length) : HandedOn g k force [b] s
    { s with ins := s.ins.set b ((opened n old).set j force),
             pending := Members.add s.pending b } := by
  have hpred := getElem?_of_idxOf? hj
  have there : (s.ins.set b (opened n old))[b]? = some (opened n old) :=
    List.getElem?_set_self (lt_of_getElem? hold)
  have cells : ∀ a i, cell (s.ins.set b ((opened n old).set j force)) a i =
      if a = b ∧ i = j then some force else cell (s.ins.set b (opened n old)) a i := by
    intro a i
    rw [← cell_set_set there hlt, set_set]
  exact {
    blocks := rfl
    pruning := rfl
    size := by simp
    pending := fun a ha => by simp [ha]
    fresh := fun a ha => by
      obtain ha | rfl := Members.mem_add.mp ha
      · exact .inl ha
      · exact .inr ⟨j, by rw [cells, if_pos ⟨rfl, rfl⟩]⟩
    tables := fun a => by
      by_cases ha : a = b
      · simp [ha]
      · exact .inl (getElem?_set_ne (Ne.symm ha))
    cells := fun a i v hv => by
      rw [cells] at hv
      split at hv
      · next e =>
        obtain ⟨rfl, rfl⟩ := e
        cases hv
        exact .inr (.inr ⟨rfl, by simp, n, hn, hpred⟩)
      · exact (cell_of_opened hold hv).imp_right .inl
    kept := fun a i v hv => by
      rw [cells]
      split
      · next e =>
        obtain ⟨rfl, rfl⟩ := e
        exact .inr ⟨rfl, n, hn, hpred⟩
      · exact .inl (cell_opened hold hv)
    filled := fun a ha => by
      obtain rfl : a = b := by simpa using ha
      exact ⟨n, j, force, hn, hj, by rw [cells, if_pos ⟨rfl, rfl⟩], fun _ => rfl⟩ }

end Cells

variable (hx : ∃ x v, force.get? x = some v)
include hx

/-- Handing versions on to one block. -/
lemma passVersions_spec (pl : Plain s.ins) (h : passVersions g k force s b = .ok t) :
    HandedOn g k force [b] s t := by
  obtain ⟨n, hn, h⟩ := of_bind h
  obtain ⟨old, hold, h⟩ := of_bind h
  obtain ⟨j, hj, h⟩ := of_bind h
  obtain ⟨c, hc, h⟩ := of_bind h
  rw [itemAt_eq_ok] at hn hold hc
  rw [slot_eq_ok] at hj
  split at h
  · next same =>
    cases h
    refine .of_same hold hn hj hx hc (Versions.get?_of_same ?_ same)
    have there : cell (s.ins.set b (opened n old)) b j = some c := by
      rw [cell_set hold, if_pos rfl]
      exact hc
    obtain hc | rfl := cell_of_opened hold there
    · exact pl b j c hc
    · simp
  · cases h
    exact .of_set hold hn hj (lt_of_getElem? hc)

/-- Handing versions on to several blocks, one after the other. -/
lemma foldlM_passVersions_spec (nd : force.keys.Nodup) (pl : Plain s.ins)
    (h : targets.foldlM (passVersions g k force) s = .ok t) : HandedOn g k force targets s t := by
  induction targets generalizing s with
  | nil =>
    cases foldlM_nil_eq_ok.mp h
    exact .refl
  | cons b targets ih =>
    obtain ⟨u, hu, h⟩ := foldlM_cons_eq_ok.mp h
    have first := passVersions_spec hx pl hu
    refine first.trans (ih (fun a j c hc => ?_) h)
    obtain hc | rfl | ⟨rfl, _⟩ := first.cells a j c hc
    · exact pl a j c hc
    · simp
    · exact nd

end Pass

/-- A block to which a version of a variable has come, or the first one. -/
def Seen (x : String) (ins : List (List Versions)) (k : Nat) : Prop :=
  k = 0 ∨ ∃ j c v, cell ins k j = some c ∧ c.get? x = some v

/-- A block that has been linked with what has come in last, and whose versions have been handed on.
-/
structure Done (g : FlowGraph) (bs : List Block) (s : Linking) (k : Nat) (n : Node)
    (tables : List Versions) (b₀ b b' : Block) (force : Versions) : Prop where
  node : g[k]? = some n
  arrivals : s.ins[k]? = some tables
  first : bs[k]? = some b₀
  before : Linked g bs k (arriving g bs k) b₀ b
  link : linkBlock g n.pred tables false (inForce tables) b = .ok (force, b')
  block : s.blocks[k]? = some b'
  handed : ∀ q ∈ n.succ, ∃ m j c, g[q]? = some m ∧ m.pred.idxOf? k = some j ∧
    cell s.ins q j = some c ∧ ∀ x, c.get? x = force.get? x

/-- What is known at any time of the flow. The variable is one that the first block assigns. -/
structure Sound (g : FlowGraph) (bs : List Block) (x : String) (s : Linking) : Prop where
  pruning : s.pruning = false
  size : s.ins.length = g.length
  length : s.blocks.length = bs.length
  arrived : ∀ (k : Nat) n tables, g[k]? = some n → s.ins[k]? = some tables →
    Arrived g bs k n.pred tables
  linked : ∀ (k : Nat) b b', bs[k]? = some b → s.blocks[k]? = some b' →
    Linked g bs k (arriving g bs k) b b'
  pending : ∀ k ∈ s.pending, Seen x s.ins k
  done : ∀ k, Seen x s.ins k → k ∈ s.pending ∨
    ∃ n tables b₀ b b' force, Done g bs s k n tables b₀ b b' force

/-- Blocks with numbered versions and phis: at most one version of a variable comes to a block
without a phi for it, and the first block assigns a certain variable. -/
structure Phased (g : FlowGraph) (bs : List Block) (x : String) : Prop where
  length : bs.length = g.length
  versions : ∀ b ∈ bs, AllVersions b
  phis : ∀ y k, HasPhi bs y k → Assigns bs y k
  unique : ∀ y k n m, ¬ HasPhi bs y k → arriving g bs k y n → arriving g bs k y m → n = m
  first : Assigns bs x 0

section Run

variable {n : Node} {tables : List Versions} {b₀ b b' : Block} {y v : String}

lemma Sound.cell_arrived (sd : Sound g bs x s) {j : Nat} {c : Versions}
    (h : cell s.ins k j = some c) : ∃ n tables, g[k]? = some n ∧ s.ins[k]? = some tables ∧
      tables[j]? = some c ∧ Arrived g bs k n.pred tables := by
  obtain ⟨tables, ht, hc⟩ := Option.bind_eq_some_iff.mp h
  have hk : k < g.length := sd.size ▸ lt_of_getElem? ht
  exact ⟨g[k], tables, List.getElem?_eq_getElem hk, ht, hc,
    sd.arrived k _ tables (List.getElem?_eq_getElem hk) ht⟩

lemma Sound.live (sd : Sound g bs x s) (h : Seen x s.ins k) : g.Live k := by
  obtain rfl | ⟨j, c, v, hc, hv⟩ := h
  · exact .root
  · obtain ⟨n, tables, _, _, htc, ar⟩ := sd.cell_arrived hc
    obtain ⟨p, _, live, e, _⟩ := ar.origin j c htc x v hv
    exact live.step e

lemma Arrived.settled (ph : Phased g bs x) (ar : Arrived g bs k n.pred tables) {t : Versions}
    (hy : ¬ HasPhi bs y k) (ht : t ∈ tables) (hv : t.get? y = some v) :
    (inForce tables).get? y = some v := by
  have come : ∀ u ∈ tables, ∀ w, u.get? y = some w → arriving g bs k y w := by
    intro u hu w hw
    obtain ⟨j, hj⟩ := mem_iff_getElem?.mp hu
    obtain ⟨p, _, live, e, leaves⟩ := ar.origin j u hj y w hw
    exact arriving_of_leaving live e leaves
  exact Merge.settledBy_complete ar.nodup ht hv fun u hu w hw =>
    ph.unique y k w v hy (come u hu w hw) (come t ht v hv)

lemma Sound.has_version (sd : Sound g bs x s) (ph : Phased g bs x) (seen : Seen x s.ins k)
    (hn : g[k]? = some n) (ht : s.ins[k]? = some tables) (hb : bs[k]? = some b₀)
    (lk : Linked g bs k (arriving g bs k) b₀ b)
    (h : linkBlock g n.pred tables false (inForce tables) b = .ok (force, b')) :
    ∃ v, force.get? x = some v := by
  rw [get?_linkBlock h, lk.lastOf_eq]
  cases hl : lastOf x b₀ with
  | some d => exact ⟨d, rfl⟩
  | none =>
    have ha : ¬ Assigns bs x k := by
      rintro ⟨c, d, hc, hd⟩
      rw [hb] at hc
      cases hc
      rw [hl] at hd
      cases hd
    obtain rfl | ⟨j, c, v, hc, hv⟩ := seen
    · exact absurd ph.first ha
    · rw [cell_of_getElem? ht] at hc
      exact ⟨v, Arrived.settled ph (sd.arrived k n tables hn ht) (fun hphi => ha (ph.phis x k hphi))
        (mem_of_getElem? hc) hv⟩

/-- The tables of a sound state list no variable twice. -/
lemma Sound.plain (sd : Sound g bs x s) : Plain s.ins := by
  intro a j c hc
  obtain ⟨_, tables, _, _, htc, ar⟩ := sd.cell_arrived hc
  exact ar.nodup c (mem_of_getElem? htc)

/-- A visit of a block: it is linked with what has come in, and what is in force at its end is handed
on. -/
structure Visits (g : FlowGraph) (bs : List Block) (x : String) (s t : Linking) (k : Nat)
    (rest : List Nat) (n : Node) (tables : List Versions) (b₀ b b' : Block) (force : Versions) :
    Prop where
  pending : s.pending = k :: rest
  node : g[k]? = some n
  arrivals : s.ins[k]? = some tables
  first : bs[k]? = some b₀
  block : s.blocks[k]? = some b
  link : linkBlock g n.pred tables false (inForce tables) b = .ok (force, b')
  nodup : force.keys.Nodup
  version : ∃ v, force.get? x = some v
  handed : HandedOn g k force n.succ { s with pending := rest, blocks := s.blocks.set k b' } t

lemma Sound.visits (ph : Phased g bs x) (sd : Sound g bs x s) (h : visitBlock g s = .ok t) :
    t = s ∨ ∃ k rest n tables b₀ b b' force,
      Visits g bs x s t k rest n tables b₀ b b' force := by
  unfold visitBlock at h
  split at h
  · cases h
    exact .inl rfl
  next k rest hp =>
  obtain ⟨n, hn, h⟩ := of_bind h
  obtain ⟨tables, ht, h⟩ := of_bind h
  obtain ⟨b, hb, h⟩ := of_bind h
  obtain ⟨⟨force, b'⟩, hlink, h⟩ := of_bind h
  rw [itemAt_eq_ok] at hn ht hb
  rw [sd.pruning] at hlink
  have hfirst := List.getElem?_eq_getElem (sd.length ▸ lt_of_getElem? hb)
  obtain ⟨v, hv⟩ := sd.has_version ph (sd.pending k (by simp [hp])) hn ht hfirst
    (sd.linked k _ b hfirst hb) hlink
  have nd : force.keys.Nodup :=
    nodup_linkBlock (Merge.nodup_settledBy (sd.arrived k n tables hn ht).nodup) hlink
  refine .inr ⟨k, rest, n, tables, _, b, b', force, hp, hn, ht, hfirst, hb, hlink, nd, ⟨v, hv⟩, ?_⟩
  exact foldlM_passVersions_spec ⟨x, v, hv⟩ nd sd.plain h

section Visit

variable {rest : List Nat} (vs : Visits g bs x s t k rest n tables b₀ b b' force)
include vs

lemma Visits.getElem?_blocks (j : Nat) :
    t.blocks[j]? = if j = k then some b' else s.blocks[j]? := by
  rw [vs.handed.blocks]
  by_cases hj : j = k
  · simp [hj, lt_of_getElem? vs.block]
  · rw [if_neg hj]
    exact getElem?_set_ne (Ne.symm hj)

/-- Versions keep coming to a block to which one has come. -/
lemma Visits.onward {a : Nat} (h : Seen x s.ins a) : Seen x t.ins a := by
  obtain ⟨v, hv⟩ := vs.version
  obtain rfl | ⟨j, c, w, hc, hw⟩ := h
  · exact .inl rfl
  · obtain hc | ⟨hc, _⟩ := vs.handed.kept a j c hc
    · exact .inr ⟨j, c, w, hc, hw⟩
    · exact .inr ⟨j, force, v, hc, hv⟩

/-- A block to which a version comes for the first time is to be visited. -/
lemma Visits.back {a : Nat} (h : Seen x t.ins a) : Seen x s.ins a ∨ a ∈ t.pending := by
  obtain rfl | ⟨j, c, w, hc, hw⟩ := h
  · exact .inl (.inl rfl)
  · obtain hc | rfl | ⟨rfl, _⟩ := vs.handed.cells a j c hc
    · exact .inl (.inr ⟨j, c, w, hc, hw⟩)
    · cases hw
    · obtain e | hmem := vs.handed.tables a
      · refine .inl (.inr ⟨j, _, w, ?_, hw⟩)
        unfold cell at hc ⊢
        rwa [← e]
      · exact .inr hmem

variable (sd : Sound g bs x s)
include sd

/-- What is in force at the end of the block leaves it. -/
lemma Visits.leaves : Backed force (leaving g bs k) := by
  have lk := sd.linked k b₀ b vs.first vs.block
  rw [leaving_eq vs.first]
  exact (sd.arrived k n tables vs.node vs.arrivals).backed.after fun y => by
    rw [get?_linkBlock vs.link, lk.lastOf_eq]

/-- What comes in behind the visit leaves a block in front. -/
lemma Visits.arrived {a : Nat} {m : Node} {tables' : List Versions} (hm : g[a]? = some m)
    (ht : t.ins[a]? = some tables') : Arrived g bs a m.pred tables' := by
  refine ⟨fun c hc => ?_, fun j c hc y w hw => ?_⟩
  · obtain ⟨j, hj⟩ := mem_iff_getElem?.mp hc
    obtain hc | rfl | ⟨rfl, _⟩ := vs.handed.cells a j c (by rw [cell_of_getElem? ht, hj])
    · exact sd.plain a j c hc
    · simp
    · exact vs.nodup
  · obtain hc | rfl | ⟨rfl, hmem, m', hm', hpred⟩ :=
      vs.handed.cells a j c (by rw [cell_of_getElem? ht, hc])
    · obtain ⟨m', old, hm', _, htc, ar⟩ := sd.cell_arrived hc
      cases hm.symm.trans hm'
      exact ar.origin j c htc y w hw
    · cases hw
    · cases hm.symm.trans hm'
      have live := sd.live (sd.pending k (by simp [vs.pending]))
      exact ⟨k, hpred, live, ⟨n, vs.node, hmem⟩, vs.leaves sd y w hw⟩

/-- The block visited is linked anew, and the others stay as they are. -/
lemma Visits.linked (ph : Phased g bs x) {a : Nat} {c c' : Block} (hc : bs[a]? = some c)
    (hc' : t.blocks[a]? = some c') : Linked g bs a (arriving g bs a) c c' := by
  rw [vs.getElem?_blocks] at hc'
  split at hc'
  · next e =>
    subst e
    cases hc'
    cases vs.first.symm.trans hc
    have ar := sd.arrived a n tables vs.node vs.arrivals
    exact (sd.linked a b₀ b vs.first vs.block).relink ar (ph.versions _ (mem_of_getElem? vs.first))
      (proper_arriving ph.versions) ar.backed vs.link
  · exact sd.linked a c c' hc hc'

/-- The block visited is done unless it leads to itself, and others that were done are so still unless
versions have come to them. -/
lemma Visits.done {a : Nat} (ha : Seen x t.ins a) : a ∈ t.pending ∨
    ∃ n tables b₀ b b' force, Done g bs t a n tables b₀ b b' force := by
  by_cases hpa : a ∈ t.pending
  · exact .inl hpa
  have ha := (vs.back ha).resolve_right hpa
  have same := (vs.handed.tables a).resolve_right hpa
  by_cases hak : a = k
  · subst hak
    exact .inr ⟨n, tables, b₀, b, b', force, vs.node, same.trans vs.arrivals, vs.first,
      sd.linked a b₀ b vs.first vs.block, vs.link, by rw [vs.getElem?_blocks, if_pos rfl],
      vs.handed.filled⟩
  obtain hmem | ⟨m, ts, c₀, c, c', fc, dn⟩ := sd.done a ha
  · rw [vs.pending] at hmem
    exact absurd (vs.handed.pending a ((mem_cons.mp hmem).resolve_left hak)) hpa
  · refine .inr ⟨m, ts, c₀, c, c', fc, { dn with
      arrivals := same.trans dn.arrivals, block := ?_, handed := fun q hq => ?_ }⟩
    · rw [vs.getElem?_blocks, if_neg hak]
      exact dn.block
    · obtain ⟨mq, j, d, hmq, hj, hd, agree⟩ := dn.handed q hq
      obtain hd | ⟨_, m', hm', hpred⟩ := vs.handed.kept q j d hd
      · exact ⟨mq, j, d, hmq, hj, hd, agree⟩
      · -- The edge belongs to the other block.
        cases hmq.symm.trans hm'
        rw [getElem?_of_idxOf? hj] at hpred
        exact absurd (Option.some.inj hpred) hak

end Visit

/-- A visit keeps what is known of the flow. -/
lemma Sound.visit (ph : Phased g bs x) (sd : Sound g bs x s) (h : visitBlock g s = .ok t) :
    Sound g bs x t := by
  obtain rfl | ⟨k, rest, n, tables, b₀, b, b', force, vs⟩ := sd.visits ph h
  · exact sd
  obtain ⟨v, hv⟩ := vs.version
  exact {
    pruning := vs.handed.pruning.trans sd.pruning
    size := vs.handed.size.trans sd.size
    length := by
      rw [vs.handed.blocks]
      simpa using sd.length
    arrived := fun _ _ _ hm ht => vs.arrived sd hm ht
    linked := fun _ _ _ hc hc' => vs.linked sd ph hc hc'
    pending := fun a ha => by
      obtain ha | ⟨j, hj⟩ := vs.handed.fresh a ha
      · exact vs.onward (sd.pending a (by simp [vs.pending, ha]))
      · exact .inr ⟨j, force, v, hj, hv⟩
    done := fun _ ha => vs.done sd ha }

lemma Sound.initial (ph : Phased g bs x)
    (fresh : ∀ b ∈ bs, ∀ i ∈ b, i.op = some "phi" → i.args = some [] ∧ i.labels = some []) :
    Sound g bs x (.initial bs) := by
  have cells : ∀ k j c, cell (Linking.initial bs).ins k j = some c → c = .empty := by
    intro k j c hc
    obtain ⟨tables, ht, hc⟩ := Option.bind_eq_some_iff.mp hc
    obtain ht | rfl := mem_or_eq_of_mem_set (mem_of_getElem? ht)
    · obtain ⟨_, _, rfl⟩ := mem_map.mp ht
      simp at hc
    · simpa using mem_of_getElem? hc
  exact {
    pruning := rfl
    size := by simp [Linking.initial, ph.length]
    length := rfl
    arrived := fun k n tables hn ht => by
      refine ⟨fun c hc => ?_, fun j c hc y v hv => ?_⟩
      · obtain ⟨j, hj⟩ := mem_iff_getElem?.mp hc
        obtain rfl := cells k j c (by rw [cell_of_getElem? ht, hj])
        simp
      · obtain rfl := cells k j c (by rw [cell_of_getElem? ht, hc])
        cases hv
    linked := fun k b b' hb hb' => by
      change bs[k]? = some b' at hb'
      rw [hb] at hb'
      cases hb'
      exact .refl (fresh b (mem_of_getElem? hb))
    pending := by simp [Linking.initial, Seen]
    done := fun k => by
      rintro (rfl | ⟨j, c, v, hc, hv⟩)
      · exact .inl (by simp [Linking.initial])
      · obtain rfl := cells k j c hc
        cases hv }

lemma Sound.done_of_seen (sd : Sound g bs x s) (ended : s.pending = []) (h : Seen x s.ins k) :
    ∃ n tables b₀ b b' force, Done g bs s k n tables b₀ b b' force := by
  obtain h | h := sd.done k h
  · simp [ended] at h
  · exact h

lemma Done.comes_in {p : Nat} {force : Versions} (dn : Done g bs s p n tables b₀ b b' force)
    (hv : force.get? y = some v) (e : g.Edge p k) :
    ∃ j c, cell s.ins k j = some c ∧ c.get? y = some v := by
  obtain ⟨m, hm, hmem⟩ := e
  rw [dn.node] at hm
  cases hm
  obtain ⟨_, j, c, _, _, hc, agree⟩ := dn.handed k hmem
  exact ⟨j, c, hc, by rw [agree, hv]⟩

section End

variable (ph : Phased g bs x) (sd : Sound g bs x s) (ended : s.pending = [])
include ph sd ended

lemma Sound.seen (live : g.Live k) : Seen x s.ins k := by
  induction live with
  | root => exact .inl rfl
  | @step a b _ e ih =>
    obtain ⟨n, tables, b₀, c, c', force, dn⟩ := sd.done_of_seen ended ih
    obtain ⟨v, hv⟩ := sd.has_version ph ih dn.node dn.arrivals dn.first dn.before dn.link
    obtain ⟨m, hm, hmem⟩ := e
    rw [dn.node] at hm
    cases hm
    obtain ⟨_, j, d, _, _, hd, agree⟩ := dn.handed b hmem
    exact .inr ⟨j, d, v, hd, by rw [agree, hv]⟩

lemma Sound.complete {y v : String} (h : arriving g bs k y v) :
    ∃ j c, cell s.ins k j = some c ∧ c.get? y = some v := by
  obtain ⟨d, b, hb, hlast, way⟩ := h
  induction way with
  | edge live e =>
    obtain ⟨n, tables, b₀, c, c', force, dn⟩ := sd.done_of_seen ended (sd.seen ph ended live)
    refine dn.comes_in ?_ e
    obtain rfl : b = b₀ := by simpa [hb] using dn.first
    rw [get?_linkBlock dn.link, dn.before.lastOf_eq, hlast, Option.some_or]
  | @step p k way hp e ih =>
    obtain ⟨j, t, ht, hv⟩ := ih
    obtain ⟨n, tables, b₀, c, c', force, dn⟩ := sd.done_of_seen ended (sd.seen ph ended way.live)
    refine dn.comes_in ?_ e
    have hl : lastOf y b₀ = none := by
      by_contra hne
      obtain ⟨d', hd'⟩ := Option.ne_none_iff_exists'.mp hne
      exact hp ⟨b₀, d', dn.first, hd'⟩
    rw [cell_of_getElem? dn.arrivals] at ht
    rw [get?_linkBlock dn.link, dn.before.lastOf_eq, hl, Option.none_or]
    exact Arrived.settled ph (sd.arrived p n tables dn.node dn.arrivals)
      (fun hphi => hp (ph.phis y p hphi)) (mem_of_getElem? ht) hv

end End

end Run

/-- A block that control reaches, in the end: it has been linked with all versions that can reach
it. -/
structure Resolved (g : FlowGraph) (bs blocks : List Block) (k : Nat) (n : Node)
    (tables : List Versions) (b₀ b b' : Block) (force : Versions) : Prop where
  node : g[k]? = some n
  first : bs[k]? = some b₀
  before : Linked g bs k (arriving g bs k) b₀ b
  link : linkBlock g n.pred tables false (inForce tables) b = .ok (force, b')
  block : blocks[k]? = some b'
  arrived : Arrived g bs k n.pred tables
  settled : ∀ y v, ¬ HasPhi bs y k → arriving g bs k y v → (inForce tables).get? y = some v
  edges : ∀ p, g.Live p → g.Edge p k → ∃ (j : Nat) (t : Versions), n.pred[j]? = some p ∧
    tables[j]? = some t ∧ ∀ y v, leaving g bs p y v → ∃ w, t.get? y = some w

/-- Blocks in the end of the flow. -/
structure Flowed (g : FlowGraph) (bs blocks : List Block) : Prop where
  length : blocks.length = bs.length
  linked : ∀ (k : Nat) b b', bs[k]? = some b → blocks[k]? = some b' →
    Linked g bs k (arriving g bs k) b b'
  resolved : ∀ k, g.Live k → ∃ n tables b₀ b b' force, Resolved g bs blocks k n tables b₀ b b' force

/-- When the flow has come to its end, every block that control reaches is resolved. -/
theorem settleLinks_spec (ph : Phased g bs x)
    (fresh : ∀ b ∈ bs, ∀ i ∈ b, i.op = some "phi" → i.args = some [] ∧ i.labels = some [])
    (h : settleLinks g (.initial bs) = .ok s) : Flowed g bs s.blocks := by
  obtain ⟨sd, ended⟩ := Iterate.run_invariant (Sound g bs x) (fun _ _ sd _ => sd.visit ph) h
    (.initial ph fresh)
  have ended : s.pending = [] := isEmpty_iff.mp ended
  refine ⟨sd.length, sd.linked, fun k live => ?_⟩
  obtain ⟨n, tables, b₀, b, b', force, dn⟩ := sd.done_of_seen ended (sd.seen ph ended live)
  have ar := sd.arrived k n tables dn.node dn.arrivals
  refine ⟨n, tables, b₀, b, b', force, dn.node, dn.first, dn.before, dn.link, dn.block, ar, ?_, ?_⟩
  · intro y v hy hv
    obtain ⟨j, c, hc, hv⟩ := sd.complete ph ended hv
    rw [cell_of_getElem? dn.arrivals] at hc
    exact Arrived.settled ph ar hy (mem_of_getElem? hc) hv
  · intro p live e
    obtain ⟨m, ts, c₀, c, c', fp, dp⟩ := sd.done_of_seen ended (sd.seen ph ended live)
    obtain ⟨m', hm', hmem⟩ := e
    rw [dp.node] at hm'
    cases hm'
    obtain ⟨n', j, t, hn', hj, ht, agree⟩ := dp.handed k hmem
    rw [dn.node] at hn'
    cases hn'
    rw [cell_of_getElem? dn.arrivals] at ht
    refine ⟨j, t, getElem?_of_idxOf? hj, ht, fun y v hv => ?_⟩
    rw [agree, get?_linkBlock dp.link, dp.before.lastOf_eq]
    rw [leaving_eq dp.first] at hv
    cases hl : lastOf y c₀ with
    | some d => exact ⟨d, rfl⟩
    | none =>
      -- The block does not assign the variable, so one version has come in and is in force.
      rw [Naming.after_of_none hl] at hv
      obtain ⟨i, u, hu, hv⟩ := sd.complete ph ended hv
      rw [cell_of_getElem? dp.arrivals] at hu
      refine ⟨v, Arrived.settled ph (sd.arrived p m ts dp.node dp.arrivals) (fun hphi => ?_)
        (mem_of_getElem? hu) hv⟩
      obtain ⟨d₀, d, hd₀, hd⟩ := ph.phis y p hphi
      rw [dp.first] at hd₀
      cases hd₀
      rw [hl] at hd
      cases hd

end Linking

end Ssa

end BrilKit
