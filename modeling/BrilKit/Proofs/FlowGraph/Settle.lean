import BrilKit.Proofs.FlowGraph.Dominance
import BrilKit.Proofs.Liveness.Settle

/-!
# Dominators that are told without circles

Sets that start empty and only grow come to their end. Main statement: in the end a block is in the
set of another one if it dominates that one and no way around it goes in a circle. An edge that is
doubled counts as a circle, since one of the two is never used.
-/

namespace BrilKit

open List Outcome Relation

namespace FlowGraph

variable {g : FlowGraph} {a b d k p q : Nat} {n : Node}

/-- Control can come back to a block without another one, or a block leads to it twice. -/
def Recurs (g : FlowGraph) (d a : Nat) : Prop :=
  TransGen (g.Passes d) a a ∨ ∃ n, g[a]? = some n ∧ ¬ n.pred.Nodup

lemma avoids_of_passes (hd : 0 ≠ d) (way : ReflTransGen (g.Passes d) 0 b) :
    Avoids g.Edge 0 d b := by
  induction way with
  | refl => exact .root hd
  | tail _ st ih => exact ih.step st.2.1 st.2.2.2

section Covered

variable (edges : ∀ {p q}, Into g p q ↔ Edge g p q)
include edges

lemma lt_of_pred (hn : g[b]? = some n) (hp : p ∈ n.pred) : p < g.length := by
  obtain ⟨_, hp, _⟩ := edges.mp ⟨n, hn, hp⟩
  exact lt_of_getElem? hp

lemma Covered.lt (h : Covered g d b) (hb : b < g.length) : d < g.length := by
  induction h with
  | self => exact hb
  | @step b n hn ne _ _ ih =>
    obtain ⟨p, hp⟩ := exists_mem_of_ne_nil _ ne
    exact ih p hp (lt_of_pred edges hn hp)

variable (live : ∀ b < g.length, g.Live b)
include live

/-- A block that dominates another one covers it, unless control can go in a circle between. -/
lemma covered_of_dominates (h : Dominates g.Edge 0 d b) (hb : b < g.length)
    (smooth : ∀ a ≠ d, ReflTransGen (g.Passes d) a b → ¬ g.Recurs d a) : Covered g d b := by
  -- The blocks between are ordered by the ways from one to another.
  let Before (a c : Fin g.length) : Prop :=
    TransGen (g.Passes d) a c ∧ ReflTransGen (g.Passes d) c b
  have : IsTrans _ Before := ⟨fun _ _ _ h h' => ⟨h.1.trans h'.1, h'.2⟩⟩
  have : Std.Irrefl Before := ⟨fun a h => by
    obtain ⟨_, st, _⟩ := TransGen.head'_iff.mp h.1
    exact smooth a st.2.2.1 h.2 (.inl h.1)⟩
  have wf := Finite.wellFounded_of_trans_of_irrefl Before
  have all : ∀ c : Fin g.length, ReflTransGen (g.Passes d) c b → Covered g d c := by
    intro c
    induction c using wf.induction with
    | _ c ih =>
      intro way
      by_cases hc : c.val = d
      · exact hc ▸ .self
      have hn : g[c.val]? = some g[c.val] := getElem?_eq_getElem c.isLt
      refine .step hn ?_ (by_contra fun twice => smooth c hc way (.inr ⟨_, hn, twice⟩))
        fun p hp => ?_
      · intro none
        obtain root | ⟨p, _, e⟩ := (reach_iff.mp (live c c.isLt)).cases_tail
        · rw [root] at way hc
          exact h.2 (avoids_of_passes hc way)
        · obtain ⟨m, hm, mem⟩ := edges.mpr e
          cases hn.symm.trans hm
          simp [none] at mem
      · by_cases hpd : p = d
        · exact hpd ▸ .self
        have hlt := lt_of_pred edges hn hp
        have st : g.Passes d p c := ⟨live p hlt, edges.mp ⟨_, hn, hp⟩, hpd, hc⟩
        exact ih ⟨p, hlt⟩ ⟨.single st, way⟩ (.head st way)
  exact all ⟨b, hb⟩ .refl

lemma covered_iff (w : Rooted g) (hb : b < g.length) : Covered g d b ↔
    Dominates g.Edge 0 d b ∧ ∀ a ≠ d, ReflTransGen (g.Passes d) a b → ¬ g.Recurs d a := by
  refine ⟨fun h => ⟨h.dominates w (live b hb), fun a hne way => ?_⟩,
    fun h => covered_of_dominates edges live h.1 hb h.2⟩
  have ha : Covered g d a := by
    obtain rfl | way := reflTransGen_iff_eq_or_transGen.mp way
    · exact h
    · exact h.backward w way
  rintro (cycle | ⟨n, hn, twice⟩)
  · exact ha.no_cycle w cycle
  · cases ha with
    | self => exact hne rfl
    | step hn' _ nd _ =>
      cases hn.symm.trans hn'
      exact twice nd

end Covered

lemma exists_idxOf? {ns : List Nat} (h : p ∈ ns) : ∃ i, ns.idxOf? p = some i :=
  Option.ne_none_iff_exists'.mp fun none => idxOf?_eq_none_iff.mp none h

lemma nodup_iff_idxOf? {ns : List Nat} :
    ns.Nodup ↔ ∀ (i : Nat) p, ns[i]? = some p → ns.idxOf? p = some i := by
  refine ⟨fun nd i p hi => ?_, fun h => ?_⟩
  · obtain ⟨j, found⟩ := exists_idxOf? (mem_of_getElem? hi)
    have hj := getElem?_of_idxOf? found
    rw [found, (getElem?_inj (lt_of_getElem? hj) nd).mp (hj.trans hi.symm)]
  · refine nodup_iff_getElem?_ne_getElem?.mpr fun i j hij hj e => ?_
    have hi := getElem?_eq_getElem (hij.trans hj)
    exact Nat.ne_of_lt hij (Option.some.inj ((h i _ hi).symm.trans (h j _ (e ▸ hi))))

namespace DomState

variable {s t : DomState} {out rest : List Nat}

def outAt (s : DomState) (k : Nat) : List Nat := s.outs.getD k []

lemma outAt_eq (h : s.outs[k]? = some out) : s.outAt k = out := by
  rw [outAt, getD_eq_getElem?_getD, h, Option.getD_some]

/-- There is a set for each edge that comes in at a block. -/
structure PerEdge (g : FlowGraph) (s : DomState) : Prop where
  blocks : s.ins.length = g.length
  edges : ∀ (b : Nat) sets n, s.ins[b]? = some sets → g[b]? = some n → sets.length = n.pred.length

lemma PerEdge.exists_sets (pe : PerEdge g s) (hn : g[b]? = some n) :
    ∃ sets, s.ins[b]? = some sets ∧ sets.length = n.pred.length := by
  have hb : b < s.ins.length := pe.blocks ▸ lt_of_getElem? hn
  exact ⟨_, getElem?_eq_getElem hb, pe.edges b _ n (getElem?_eq_getElem hb) hn⟩

/-- What passing a set on over some edges does. -/
structure PassedOn (g : FlowGraph) (k : Nat) (out : List Nat) (targets : List Nat)
    (s t : DomState) : Prop where
  outs : t.outs = s.outs
  pending : ∀ b, b ∈ t.pending ↔ b ∈ s.pending ∨ b ∈ targets
  more : t.pending.length ≤ s.pending.length + targets.length
  perEdge : PerEdge g t
  cells : ∀ b i : Nat, cell t.ins b i = cell s.ins b i ∨
    cell t.ins b i = some out ∧ ∃ n, g[b]? = some n ∧ n.pred.idxOf? k = some i
  filled : ∀ b ∈ targets, ∀ n i, g[b]? = some n → n.pred.idxOf? k = some i →
    cell t.ins b i = some out

lemma exists_pass (pe : PerEdge g s) (h : Into g k b) :
    ∃ t, pass g k out s b = .ok t ∧ PassedOn g k out [b] s t := by
  obtain ⟨n, hn, hk⟩ := h
  obtain ⟨i, hi⟩ := exists_idxOf? hk
  obtain ⟨sets, hsets, size⟩ := pe.exists_sets hn
  have hlen : i < sets.length := size ▸ lt_of_getElem? (getElem?_of_idxOf? hi)
  refine ⟨_, ok_bind (itemAt_eq_ok.mpr hn) (ok_bind (slot_eq_ok.mpr hi)
    (ok_bind (itemAt_eq_ok.mpr hsets) rfl)), rfl, by simp, Members.length_add_le,
    ⟨by simpa using pe.blocks, fun c xs m hxs hm => ?_⟩, fun c j => ?_, fun c hc m j hm hj => ?_⟩
  · by_cases hc : c = b
    · subst hc
      rw [List.getElem?_set_self (lt_of_getElem? hsets)] at hxs
      cases hxs
      simpa using pe.edges c sets m hsets hm
    · rw [getElem?_set_ne (Ne.symm hc)] at hxs
      exact pe.edges c xs m hxs hm
  · rw [cell_set_set hsets hlen]
    split
    · next e =>
      obtain ⟨rfl, rfl⟩ := e
      exact .inr ⟨rfl, n, hn, hi⟩
    · exact .inl rfl
  · obtain rfl : c = b := by simpa using hc
    cases hn.symm.trans hm
    cases hi.symm.trans hj
    simp [cell_set_set hsets hlen]

lemma exists_foldlM_pass (out targets : List Nat) (pe : PerEdge g s)
    (into : ∀ b ∈ targets, Into g k b) :
    ∃ t, targets.foldlM (pass g k out) s = .ok t ∧ PassedOn g k out targets s t := by
  induction targets generalizing s with
  | nil => exact ⟨s, rfl, rfl, by simp, by simp, pe, fun _ _ => .inl rfl, by simp⟩
  | cons b targets ih =>
    obtain ⟨u, hu, first⟩ := exists_pass pe (into b (by simp))
    obtain ⟨t, ht, rest⟩ := ih first.perEdge fun c hc => into c (by simp [hc])
    refine ⟨t, foldlM_cons_eq_ok.mpr ⟨u, hu, ht⟩, rest.outs.trans first.outs,
      fun c => by simp [rest.pending, first.pending, or_assoc], ?_, rest.perEdge, fun c i => ?_,
      fun c hc n i hn hi => ?_⟩
    · have more := first.more
      have more' := rest.more
      simp only [length_cons, length_nil] at more ⊢
      omega
    · obtain e | new := rest.cells c i
      · rw [e]
        exact first.cells c i
      · exact .inr new
    · obtain rfl | hc := mem_cons.mp hc
      · exact (rest.cells c i).elim (·.trans (first.filled c (by simp) n i hn hi)) And.left
      · exact rest.filled c hc n i hn hi

/-- All predecessors of a block have another one in their sets, and none is listed twice. -/
def Told (g : FlowGraph) (s : DomState) (b d : Nat) : Prop :=
  ∃ n, g[b]? = some n ∧ n.pred ≠ [] ∧ n.pred.Nodup ∧ ∀ p ∈ n.pred, d ∈ s.outAt p

lemma Told.mono (h : Told g s b d)
    (sub : ∀ n, g[b]? = some n → ∀ p ∈ n.pred, s.outAt p ⊆ t.outAt p) : Told g t b d := by
  obtain ⟨n, hn, ne, nd, all⟩ := h
  exact ⟨n, hn, ne, nd, fun p hp => sub n hn p hp (all p hp)⟩

/-- What is known of the sets at any time of a run. The first cell for a predecessor holds its set,
further ones are empty. The successors of a block that has been visited are up to date, or will be
visited. -/
structure Growing (g : FlowGraph) (s : DomState) : Prop where
  perEdge : PerEdge g s
  outs : s.outs.length = g.length
  mirrors : ∀ (b i : Nat) n p set, g[b]? = some n → n.pred[i]? = some p → cell s.ins b i = some set →
    ∀ d, d ∈ set ↔ d ∈ s.outAt p ∧ n.pred.idxOf? p = some i
  waiting : ∀ b ∈ s.pending, b < g.length
  covered : ∀ b, ∀ d ∈ s.outAt b, Covered g d b
  below : ∀ b, ∀ d ∈ s.outAt b, Told g s b d ∨ d = b
  settled : ∀ b, (b = 0 ∨ ∃ p, s.outAt p ≠ [] ∧ g.Edge p b) →
    b ∈ s.pending ∨ ∀ d, Told g s b d ∨ d = b → d ∈ s.outAt b

lemma outAt_initial : (DomState.initial g).outAt b = [] := by
  simp only [outAt, DomState.initial, getD_eq_getElem?_getD, getElem?_map]
  cases g[b]? <;> rfl

lemma Growing.initial (hg : 0 < g.length) : Growing g (.initial g) where
  perEdge := ⟨by simp [DomState.initial], fun b sets n hsets hn => by
    simp only [DomState.initial, getElem?_map, hn, Option.map_some, Option.some.injEq] at hsets
    simp [← hsets]⟩
  outs := by simp [DomState.initial]
  mirrors b i n p set hn hp hset d := by
    simp only [DomState.initial, cell, getElem?_map, hn, hp, Option.map_some, Option.bind_some,
      Option.some.injEq] at hset
    simp [← hset, outAt_initial]
  waiting := by simpa [DomState.initial] using hg
  covered := by simp [outAt_initial]
  below := by simp [outAt_initial]
  settled b hb := by
    obtain rfl | ⟨p, hp, _⟩ := hb
    · exact .inl (by simp [DomState.initial])
    · exact absurd outAt_initial hp

lemma Growing.exists_outSet (gr : Growing g s) (hn : g[k]? = some n) :
    ∃ out, s.outSet k = .ok out ∧ ∀ d, d ∈ out ↔ Told g s k d ∨ d = k := by
  obtain ⟨sets, hsets, size⟩ := gr.perEdge.exists_sets hn
  have mirrors : ∀ (i : Nat) p set, n.pred[i]? = some p → sets[i]? = some set →
      ∀ d, d ∈ set ↔ d ∈ s.outAt p ∧ n.pred.idxOf? p = some i := fun i p set hp hset =>
    gr.mirrors k i n p set hn hp ((cell_of_getElem? hsets).trans hset)
  refine ⟨_, ok_bind (itemAt_eq_ok.mpr hsets) rfl, fun d => ?_⟩
  rw [Members.mem_add, Merge.mem_meetSets]
  refine or_congr_left ⟨fun h => ?_, fun h => ?_⟩
  · have each : ∀ (i : Nat) p, n.pred[i]? = some p →
        d ∈ s.outAt p ∧ n.pred.idxOf? p = some i := by
      intro i p hp
      have hi : i < sets.length := size ▸ lt_of_getElem? hp
      exact (mirrors i p _ hp (getElem?_eq_getElem hi) d).mp (h.2 _ (getElem_mem hi))
    refine ⟨n, hn, ?_, nodup_iff_idxOf?.mpr fun i p hp => (each i p hp).2, fun p hp => ?_⟩
    · intro none
      exact h.1 (eq_nil_of_length_eq_zero (by simp [size, none]))
    · obtain ⟨i, hi⟩ := mem_iff_getElem?.mp hp
      exact (each i p hi).1
  · obtain ⟨m, hm, ne, nd, all⟩ := h
    cases hn.symm.trans hm
    refine ⟨fun none => ne (eq_nil_of_length_eq_zero (by simp [← size, none])), fun set hset => ?_⟩
    obtain ⟨i, hi⟩ := mem_iff_getElem?.mp hset
    have hi' : i < n.pred.length := size ▸ lt_of_getElem? hi
    have hp := getElem?_eq_getElem hi'
    exact (mirrors i _ set hp hi d).mpr ⟨all _ (getElem_mem hi'), nodup_iff_idxOf?.mp nd i _ hp⟩

/-- A measure of the steps that a run can still take: a set can change once for every block that is
not in it, and then its successors are pending. -/
def potential (g : FlowGraph) (s : DomState) : Nat := s.pending.length +
  ∑ k ∈ Finset.range g.length,
    (g.length - (s.outAt k).toFinset.card) * (Liveness.succOf g k).length

lemma potential_initial : potential g (.initial g) < bound g := by
  have all : potential g (.initial g) = 1 + g.length * g.edgeCount := by
    simp [potential, outAt_initial, Liveness.edgeCount_eq, Finset.mul_sum]
    rfl
  rw [all, bound, Nat.add_mul, Nat.mul_add]
  omega

section Step

variable (edges : ∀ {p q}, Into g p q ↔ Edge g p q) (gr : Growing g s) (hn : g[k]? = some n)
  (mem : ∀ d, d ∈ out ↔ Told g s k d ∨ d = k)
  (now : ∀ b, t.outAt b = if b = k then out else s.outAt b) (hp : s.pending = k :: rest)
include edges gr hn mem now

include hp in
/-- A set that has changed is passed on. -/
lemma Growing.change
    (ps : PassedOn g k out n.succ { s with pending := rest, outs := s.outs.set k out } t) :
    Growing g t := by
  have onward : ∀ {b d}, Told g s b d → Told g t b d := fun h => h.mono fun _ _ p _ d hd => by
    rw [now]
    split
    · next e => exact (mem d).mpr (gr.below k d (e ▸ hd))
    · exact hd
  -- Only what comes to a successor is new.
  have back : ∀ {b d}, b ∉ n.succ → Told g t b d → Told g s b d := fun {b} _ hb h =>
    h.mono fun m hm p hpred d hd => by
      rw [now, if_neg] at hd
      · exact hd
      · rintro rfl
        obtain ⟨n', hn', hb'⟩ := edges.mp ⟨m, hm, hpred⟩
        cases hn.symm.trans hn'
        exact hb hb'
  refine ⟨ps.perEdge, by simpa [ps.outs] using gr.outs, fun b i m p set hm hpred hset d => ?_,
    fun b hb => ?_, fun b d hd => ?_, fun b d hd => ?_, fun b hb => ?_⟩
  · by_cases hi : p = k ∧ m.pred.idxOf? k = some i
    · obtain ⟨rfl, hi⟩ := hi
      obtain ⟨n', hn', hb⟩ := edges.mp ⟨m, hm, mem_of_getElem? hpred⟩
      cases hn.symm.trans hn'
      cases hset.symm.trans (ps.filled b hb m i hm hi)
      simp [now, hi]
    · obtain e | ⟨_, m', hm', hi'⟩ := ps.cells b i
      · rw [gr.mirrors b i m p set hm hpred (e.symm.trans hset), now]
        split
        · simp_all
        · rfl
      · cases hm.symm.trans hm'
        exact absurd ⟨Option.some.inj (hpred.symm.trans (getElem?_of_idxOf? hi')), hi'⟩ hi
  · obtain hb | hb := (ps.pending b).mp hb
    · exact gr.waiting b (by simp_all)
    · obtain ⟨_, hm, _⟩ := edges.mpr ⟨n, hn, hb⟩
      exact lt_of_getElem? hm
  · rw [now] at hd
    split at hd
    · next e =>
      subst e
      obtain ⟨m, hm, ne, nd, all⟩ | rfl := (mem d).mp hd
      · exact .step hm ne nd fun p hp => gr.covered p d (all p hp)
      · exact .self
    · exact gr.covered b d hd
  · rw [now] at hd
    split at hd
    · next e => exact e ▸ ((mem d).mp hd).imp_left onward
    · exact (gr.below b d hd).imp_left onward
  · by_cases hs : b ∈ n.succ
    · exact .inl ((ps.pending b).mpr (.inr hs))
    rw [now]
    by_cases hbk : b = k
    · subst hbk
      rw [if_pos rfl]
      exact .inr fun d hd => (mem d).mpr (hd.imp_left (back hs))
    rw [if_neg hbk]
    have seen : b = 0 ∨ ∃ p, s.outAt p ≠ [] ∧ g.Edge p b := hb.imp_right fun ⟨p, hp, e⟩ => by
      refine ⟨p, ?_, e⟩
      rwa [now, if_neg] at hp
      rintro rfl
      obtain ⟨n', hn', hb'⟩ := e
      cases hn.symm.trans hn'
      exact hs hb'
    obtain hb | hb := gr.settled b seen
    · rw [hp] at hb
      exact .inl ((ps.pending b).mpr (.inl ((mem_cons.mp hb).resolve_left hbk)))
    · exact .inr fun d hd => hb d (hd.imp_left (back hs))

lemma Growing.potential_lt (gr' : Growing g t) (changed : Members.same out (s.outAt k) = false)
    (more : t.pending.length < s.pending.length + n.succ.length) :
    potential g t < potential g s := by
  have hk := lt_of_getElem? hn
  have grown := Liveness.card_lt_of_not_same (fun d hd => (mem d).mpr (gr.below k d hd))
    (Members.same_comm.trans changed)
  have most : out.toFinset.card ≤ g.length := by
    refine (Finset.card_le_card fun d hd => ?_).trans_eq (Finset.card_range g.length)
    have hd : d ∈ t.outAt k := by
      rw [now, if_pos rfl]
      exact mem_toFinset.mp hd
    exact Finset.mem_range.mpr ((gr'.covered k d hd).lt edges hk)
  have less : g.length - out.toFinset.card + 1 ≤ g.length - (s.outAt k).toFinset.card := by omega
  have here := Nat.mul_le_mul_right n.succ.length less
  rw [Nat.add_mul, Nat.one_mul] at here
  unfold potential
  rw [← Finset.add_sum_erase _ _ (Finset.mem_range.mpr hk),
    ← Finset.add_sum_erase (Finset.range g.length) _ (Finset.mem_range.mpr hk), now, if_pos rfl,
    show Liveness.succOf g k = n.succ by simp [Liveness.succOf, hn],
    Finset.sum_congr rfl fun j hj => by rw [now, if_neg (Finset.ne_of_mem_erase hj)]]
  omega

omit mem now in
include hp in
/-- A visit to a block: its set stays what it is, or grows and is passed on. -/
lemma Growing.visit :
    ∃ t, DomState.step g s = .ok t ∧ Growing g t ∧ potential g t < potential g s := by
  obtain ⟨out, hout, mem⟩ := gr.exists_outSet hn
  have hk : k < s.outs.length := gr.outs ▸ lt_of_getElem? hn
  obtain ⟨old, hold⟩ : ∃ old, s.outs[k]? = some old := ⟨_, getElem?_eq_getElem hk⟩
  have was := outAt_eq hold
  cases same : Members.same out old with
  | true =>
    refine ⟨{ s with pending := rest }, ?_, { gr with
      perEdge := ⟨gr.perEdge.blocks, gr.perEdge.edges⟩
      waiting := fun b hb => gr.waiting b (by simp [hp, hb])
      settled := fun b hb => ?_ }, by simp [potential, outAt, hp]⟩
    · simp [DomState.step, hp, hout, itemAt_eq_ok.mpr hold, same]
    obtain hb | hb := gr.settled b hb
    · rw [hp] at hb
      obtain rfl | hb := mem_cons.mp hb
      · have all : ∀ d, Told g s b d ∨ d = b → d ∈ s.outAt b := fun d hd =>
          was ▸ (Members.same_iff.mp same d).mp ((mem d).mpr hd)
        exact .inr all
      · exact .inl hb
    · exact .inr hb
  | false =>
    obtain ⟨t, ht, ps⟩ := exists_foldlM_pass out n.succ (k := k)
      (s := { s with pending := rest, outs := s.outs.set k out })
      ⟨gr.perEdge.blocks, gr.perEdge.edges⟩ fun b hb => edges.mpr ⟨n, hn, hb⟩
    have now : ∀ b, t.outAt b = if b = k then out else s.outAt b := by
      intro b
      rw [outAt, ps.outs, getD_eq_getElem?_getD, getElem?_set]
      split
      · next e => simp [← e]
      · next e => simp [outAt, Ne.symm e]
    have gr' := gr.change edges hn mem now hp ps
    refine ⟨t, ?_, gr', gr.potential_lt edges hn mem now gr' (was ▸ same) ?_⟩
    · simpa [DomState.step, hp, hout, itemAt_eq_ok.mpr hold, same, itemAt_eq_ok.mpr hn] using ht
    · have more := ps.more
      simp only [hp, length_cons] at more ⊢
      omega

end Step

/-- The computation of dominators comes to its end. -/
theorem settle_total (edges : ∀ {p q}, Into g p q ↔ Edge g p q) (hg : 0 < g.length) :
    ∃ s, settle g = .ok s ∧ Growing g s ∧ (∀ b, g.Live b → b ∈ s.outAt b) ∧
      ∀ b d, g.Live b → Told g s b d → d ∈ s.outAt b := by
  obtain ⟨s, hs, gr, final⟩ : ∃ s, settle g = .ok s ∧ Growing g s ∧ s.pending.isEmpty = true := by
    refine Iterate.run_total (Growing g) (potential g) (fun s gr more => ?_) (.initial hg)
      potential_initial
    obtain ⟨k, rest, hp⟩ := exists_cons_of_ne_nil (isEmpty_eq_false_iff.mp more)
    exact gr.visit edges (getElem?_eq_getElem (gr.waiting k (by simp [hp]))) hp
  have all : ∀ b, g.Live b → ∀ d, Told g s b d ∨ d = b → d ∈ s.outAt b := by
    intro b live
    refine (gr.settled b ?_).resolve_left (by simp_all)
    induction live with
    | root => exact .inl rfl
    | step _ e ih =>
      have here := (gr.settled _ ih).resolve_left (by simp_all)
      exact .inr ⟨_, ne_nil_of_mem (here _ (.inr rfl)), e⟩
  exact ⟨s, hs, gr, fun b live => all b live b (.inr rfl),
    fun b d live told => all b live d (.inl told)⟩

end DomState

lemma settle_spec {s : DomState} (edges : ∀ {p q}, Into g p q ↔ Edge g p q) (hg : 0 < g.length)
    (h : DomState.settle g = .ok s) : Settled g s := by
  obtain ⟨s', hs, gr, self, -⟩ := DomState.settle_total edges hg
  cases h.symm.trans hs
  refine ⟨gr.perEdge.edges, fun b set hset d hd => ?_, fun b live => ?_,
    fun p b set hset e d hd => ?_⟩
  · exact gr.covered b d (DomState.outAt_eq hset ▸ hd)
  · have hb := self b live
    rw [DomState.outAt, getD_eq_getElem?_getD] at hb
    cases hset : s.outs[b]? with
    | none => simp [hset] at hb
    | some set => exact ⟨set, rfl, by simpa [hset] using hb⟩
  · obtain ⟨n, hn, hp⟩ := edges.mpr e
    obtain ⟨i, hi⟩ := exists_idxOf? hp
    have hpred := getElem?_of_idxOf? hi
    obtain ⟨sets, hsets, size⟩ := gr.perEdge.exists_sets hn
    have hlt : i < sets.length := size ▸ lt_of_getElem? hpred
    refine ⟨sets, hsets, sets[i], getElem_mem hlt, ?_⟩
    refine (gr.mirrors b i n p _ hn hpred ?_ d).mpr ⟨DomState.outAt_eq hset ▸ hd, hi⟩
    rw [cell_of_getElem? hsets, getElem?_eq_getElem hlt]

/-- The computation of dominators comes to its end. A block is then in the set of another one if it
dominates that one and no block recurs on a way there that leaves it out: control cannot come back
to one in a circle, and no edge into one is repeated, since only the first of repeated edges is ever
filled. -/
theorem settle_exact {style : Style} {is : List Instr} (items : ∀ i ∈ is, i.IsItem)
    (h : ofBody style is = .ok g) (first : g[0]? = some n) (root : n.pred = [])
    (live : ∀ b < g.length, g.Live b) :
    ∃ s, DomState.settle g = .ok s ∧ s.outs.length = g.length ∧
      ∀ (b : Nat) out, s.outs[b]? = some out → ∀ d, d ∈ out ↔ Dominates g.Edge 0 d b ∧
        ∀ a ≠ d, ReflTransGen (g.Passes d) a b → ¬ g.Recurs d a := by
  have edges : ∀ {p q}, Into g p q ↔ Edge g p q := into_iff_edge items h
  have w : Rooted g := ⟨fun _ e => edges.mpr e, fun m hm => by
    cases first.symm.trans hm
    exact root⟩
  obtain ⟨s, hs, gr, self, told⟩ := DomState.settle_total edges (lt_of_getElem? first)
  have complete : ∀ {b d}, Covered g d b → b < g.length → d ∈ s.outAt b := by
    intro b d cov hb
    induction cov with
    | self => exact self _ (live _ hb)
    | @step b m hm ne nd _ ih =>
      exact told b d (live b hb) ⟨m, hm, ne, nd, fun p hp => ih p hp (lt_of_pred edges hm hp)⟩
  refine ⟨s, hs, gr.outs, fun b out hout d => ?_⟩
  have hb : b < g.length := gr.outs ▸ lt_of_getElem? hout
  rw [← covered_iff edges live w hb, ← DomState.outAt_eq hout]
  exact ⟨gr.covered b d, fun cov => complete cov hb⟩

/-- Goes round a loop. -/
def turning : FlowGraph := [
  { block := [.labelled "top", .jump "head"], succ := [1] },
  { block := [.labelled "head",
      { op := some "br", args := some ["c"], labels := some ["body", "done"] }],
    pred := [0, 2], succ := [2, 3] },
  { block := [.labelled "body", .jump "head"], pred := [1], succ := [1] },
  { block := [.labelled "done", { op := some "ret" }], pred := [1] }]

/-- The start dominates the head of the loop, but is not in its set. -/
theorem settle_exact_turning : ofBody .looping turning.body = .ok turning ∧
    ∃ s, DomState.settle turning = .ok s ∧ s.outs[1]? = some [1] ∧ Dominates turning.Edge 0 0 1 ∧
      ∃ a ≠ 0, ReflTransGen (turning.Passes 0) a 1 ∧ turning.Recurs 0 a := by
  have built : ofBody .looping turning.body = .ok turning := by rfl
  have one : turning.Live 1 := .step .root ⟨_, rfl, by simp⟩
  obtain ⟨s, hs, _, told⟩ := settle_exact (by decide) built rfl rfl fun b hb => by
    have hb : b < 4 := hb
    interval_cases b
    · exact .root
    · exact one
    · exact one.step ⟨_, rfl, by simp⟩
    · exact one.step ⟨_, rfl, by simp⟩
  have out : s.outs[1]? = some [1] := by
    obtain rfl := Except.ok.inj hs
    rfl
  have dom := Dominates.root one
  refine ⟨built, s, hs, out, dom, ?_⟩
  by_contra none
  push Not at none
  simpa using (told 1 [1] out 0).mpr ⟨dom, none⟩

end FlowGraph

end BrilKit
