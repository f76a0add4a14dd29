import BrilKit.DataFlow.Solver
import BrilKit.Proofs.Dominance.Exact
import Mathlib

/-!
# Analyses that settle

Visits to pending blocks come to an end when the facts of an analysis only rise in an order in which
they cannot rise often. `Progress` is the invariant of the loop: a visit leaves a fact as it is
(`Progress.unchanged`) or raises it (`Progress.raised`), and `remaining` falls either way.
-/

namespace BrilKit

open List Outcome Table

namespace NamedBlocks

variable {t : NamedBlocks} {preds succs : FlowMap}

/-- Listing edges at both ends is listing the successors and turning the edges round. -/
lemma foldlM_edges {es : List (String × Block)} {preds' succs' : FlowMap} :
    es.foldlM (fun st e => do
      let targets ← exits e.2
      let preds ← targets.foldlM (fun preds s => addPred preds e.1 s) st.1
      return (preds, st.2.put e.1 targets)) (preds, succs) = .ok (preds', succs') ↔
    ∃ fs, es.mapM (fun e => do return (e.1, ← exits e.2)) = .ok fs ∧
      fs.foldlM (fun out f => f.2.foldlM (fun out s => addPred out f.1 s) out) preds = .ok preds' ∧
      fs.foldl (fun t f => t.put f.1 f.2) succs = succs' := by
  induction es generalizing preds succs with
  | nil => simp
  | cons e es ih =>
    simp only [foldlM_cons_eq_ok, bind_eq_ok, pure_eq_ok, mapM_cons]
    constructor
    · rintro ⟨_, ⟨ls, hls, mid, hmid, rfl⟩, h⟩
      obtain ⟨fs, hfs, hp, hs⟩ := ih.mp h
      exact ⟨(e.1, ls) :: fs, ⟨_, ⟨ls, hls, rfl⟩, fs, hfs, rfl⟩,
        foldlM_cons_eq_ok.mpr ⟨mid, hmid, hp⟩, hs⟩
    · rintro ⟨_, ⟨_, ⟨ls, hls, rfl⟩, fs, hfs, rfl⟩, hp, hs⟩
      obtain ⟨mid, hmid, hp⟩ := foldlM_cons_eq_ok.mp hp
      exact ⟨_, ⟨ls, hls, mid, hmid, rfl⟩, ih.mpr ⟨fs, hfs, hp, hs⟩⟩

/-- The edges of blocks whose targets exist can be listed at both ends. -/
lemma exists_edges (nd : t.keys.Nodup) (ht : t.Targeted) :
    ∃ preds succs, t.edges = .ok (preds, succs) ∧ preds.keys = t.keys ∧ succs.keys = t.keys ∧
      (∀ p n, p ∈ preds.getD n [] ↔ t.PassesTo p n) ∧
      ∀ p n, n ∈ succs.getD p [] ↔ t.PassesTo p n := by
  obtain ⟨succs, run, closed⟩ := exists_successors nd ht
  have keys := (successors_spec run).1
  obtain ⟨fs, hfs, h⟩ := of_bind run
  obtain rfl := pure_eq_ok.mp h
  obtain ⟨preds, inv⟩ := FlowMap.exists_invert (keys ▸ nd) closed
  have start : (⟨fs⟩ : FlowMap).map (fun _ => []) = t.map fun _ => ([] : List String) := by
    have : fs.map Prod.fst = t.entries.map Prod.fst := keys
    simpa [Table.map, Function.comp_def] using congrArg (List.map (·, ([] : List String))) this
  have put : fs.foldl (fun u f => u.put f.1 f.2) (t.map fun _ => []) = ⟨fs⟩ := by
    refine eq_of_get? [] (keys ▸ nd) ?_ fun k hk => ?_
    · refine (foldlRecOn (motive := fun u : FlowMap => u.keys = t.keys) fs _ keys_map fun u hu f hf => ?_).trans
        keys.symm
      exact (keys_put_of_mem (hu ▸ keys ▸ mem_map_of_mem hf)).trans hu
    · obtain ⟨ls, hls⟩ := mem_keys.mp hk
      have listed : fs = _ := entries_eq_map_keys (t := ⟨fs⟩) (keys ▸ nd) []
      conv_lhs => rw [listed, get?_foldl_put, if_pos hk, Table.getD, hls, Option.getD_some]
      exact hls.symm
  refine ⟨preds, ⟨fs⟩, foldlM_edges.mpr ⟨fs, hfs, start ▸ inv, put⟩,
    (FlowMap.invert_eq inv).1.trans keys, keys, fun p n => ?_, fun p n => (passesTo_iff_edge run).symm⟩
  exact (FlowMap.mem_invert inv (keys ▸ nd)).trans (passesTo_iff_edge run).symm

lemma targeted_of_edges {r : FlowMap × FlowMap} (h : t.edges = .ok r) : t.Targeted := by
  obtain ⟨fs, hfs, hp, -⟩ := foldlM_edges.mp h
  have known := FlowMap.known_of_addPreds ((FlowMap.foldlM_addPreds fs).symm.trans hp)
  have run : t.successors = .ok ⟨fs⟩ := ok_bind hfs rfl
  intro n b hb
  obtain ⟨ls, hls, hget⟩ := (successors_spec run).2 n b hb
  refine ⟨ls, hls, fun l hl => keys_map ▸ known (n, l) (FlowMap.mem_pairs_of_edge ?_)⟩
  rwa [FlowMap.Edge, Table.getD, hget]

lemma edges_ne_unsettled : t.edges ≠ .error .unsettled := by
  apply foldlM_ne_error
  rintro ⟨n, b⟩ - ⟨preds, succs⟩ h
  obtain h | ⟨ls, -, h⟩ := bind_eq_error.mp h
  · unfold exits at h
    split at h
    · cases h
    · obtain h | ⟨op, -, h⟩ := bind_eq_error.mp h
      · cases (ofOption_eq_error.mp h).2
      · split at h
        · cases (ofOption_eq_error.mp h).2
        · split at h <;> cases h
  · obtain h | ⟨_, -, h⟩ := bind_eq_error.mp h
    · refine foldlM_ne_error (fun s _ out h => ?_) h
      unfold addPred at h
      split at h <;> cases h
    · cases h

end NamedBlocks

namespace Analysis

variable {α : Type} {a : Analysis α} {blocks : NamedBlocks} {sources targets : FlowMap}
variable {s s' : State α} {k n p : String} {f g h : α} {facts facts' : String → α}

lemma mem_namesIn {x : String} : x ∈ namesIn blocks ↔
    ∃ b ∈ blocks.values, ∃ i ∈ b, i.dest = some x ∨ x ∈ i.uses := by
  simp [namesIn, Members.ofList]

/-- The edges along which facts flow, listed at both ends. -/
structure Wires (blocks : NamedBlocks) (sources targets : FlowMap) : Prop where
  nodup : blocks.keys.Nodup
  sourceKeys : sources.keys = blocks.keys
  targetKeys : targets.keys = blocks.keys
  converse : ∀ p n, p ∈ sources.getD n [] ↔ n ∈ targets.getD p []

lemma Wires.mem_keys (w : Wires blocks sources targets) (h : p ∈ sources.getD n []) :
    p ∈ blocks.keys := by
  rw [← w.targetKeys]
  exact FlowMap.mem_keys_of_edge ((w.converse p n).mp h)

def merged (a : Analysis α) (sources : FlowMap) (facts : String → α) (n : String) : α :=
  a.merge ((sources.getD n []).map facts)

def Computes (a : Analysis α) (blocks : NamedBlocks) (sources : FlowMap) (facts : String → α)
    (n : String) (g : α) : Prop :=
  ∃ b, blocks.get? n = some b ∧ a.transfer b (a.merged sources facts n) = .ok g

lemma Computes.unique (hf : a.Computes blocks sources facts n f)
    (hg : a.Computes blocks sources facts n g) : f = g := by
  obtain ⟨b, hb, hf⟩ := hf
  obtain ⟨c, hc, hg⟩ := hg
  obtain rfl := Option.mem_unique hb hc
  exact Except.ok.inj (hf.symm.trans hg)

lemma merged_congr (eq : ∀ p ∈ sources.getD n [], facts p = facts' p) :
    a.merged sources facts n = a.merged sources facts' n := by
  rw [merged, merged, map_congr_left eq]

lemma Computes.congr (eq : ∀ p ∈ sources.getD n [], facts p = facts' p)
    (h : a.Computes blocks sources facts n g) : a.Computes blocks sources facts' n g := by
  obtain ⟨b, hb, h⟩ := h
  exact ⟨b, hb, merged_congr eq ▸ h⟩

/-- The facts that a run can find behind each block, with an order in which they only rise and a
rank that bounds how often they do. -/
structure Ascends (a : Analysis α) (blocks : NamedBlocks) (sources : FlowMap)
    (Meets : String → α → Prop) (Le : α → α → Prop) (rank : α → Nat) (height : Nat) : Prop where
  refl : ∀ f, Le f f
  trans : ∀ f g h, Le f g → Le g h → Le f h
  init : ∀ n ∈ blocks.keys, Meets n a.init
  least : ∀ f, Le a.init f
  computes : ∀ n ∈ blocks.keys, ∀ facts, (∀ p ∈ sources.getD n [], Meets p (facts p)) →
    ∃ g, a.Computes blocks sources facts n g ∧ Meets n g
  mono : ∀ n facts facts' g g',
    (∀ p ∈ sources.getD n [], Meets p (facts p) ∧ Meets p (facts' p) ∧ Le (facts p) (facts' p)) →
    a.Computes blocks sources facts n g → a.Computes blocks sources facts' n g' → Le g g'
  same : ∀ n f, Meets n f → a.same f f = true
  rises : ∀ n f g, Meets n f → Meets n g → Le f g → a.same g f = false → rank f < rank g
  bounded : ∀ n f, Meets n f → rank f ≤ height

def State.fact (a : Analysis α) (s : State α) (n : String) : α := s.behind.getD n a.init

/-- What a visit does to a state, by what the block makes of the facts behind its sources. -/
structure Visited (a : Analysis α) (sources targets : FlowMap) (s : State α) (n : String)
    (rest : List String) (g : α) (s' : State α) : Prop where
  before : s'.before = s.before.put n (a.merged sources (s.fact a) n)
  behind : a.same g (s.fact a n) = true ∧ s'.behind = s.behind ∧ s'.pending = rest ∨
    a.same g (s.fact a n) = false ∧ s'.behind = s.behind.put n g ∧
      s'.pending = rest ++ targets.getD n []

lemma visit_visited (rest : List String) (w : Wires blocks sources targets)
    (keys : s.behind.keys = blocks.keys) (hn : n ∈ blocks.keys)
    (hg : a.Computes blocks sources (s.fact a) n g) :
    ∃ s', a.visit blocks sources targets n rest s = .ok s' ∧
      Visited a sources targets s n rest g s' := by
  obtain ⟨b, hb, hg⟩ := hg
  have hfrom := fetch_of_mem [] (w.sourceKeys ▸ hn)
  have facts := mapM_fetch a.init fun p (hp : p ∈ sources.getD n []) => keys ▸ w.mem_keys hp
  have hb := fetch_eq_ok.mpr hb
  have old := fetch_of_mem a.init (keys ▸ hn)
  have hts := fetch_of_mem [] (w.targetKeys ▸ hn)
  change a.transfer b (a.merge ((sources.getD n []).map fun m => s.behind.getD m a.init)) = _ at hg
  simp only [visit, hfrom, facts, hb, hg, old, hts, bind_ok, pure_eq]
  cases same : a.same g (s.fact a n) with
  | true => exact ⟨_, if_pos same, rfl, .inl ⟨same, rfl, rfl⟩⟩
  | false => exact ⟨_, if_neg (Bool.eq_false_iff.mp same), rfl, .inr ⟨same, rfl, rfl⟩⟩

/-- A run on its way: every fact is one that the run can meet and is below what its block makes of
the facts now, and a block that is not pending has been visited since these facts hold. -/
structure Progress (a : Analysis α) (blocks : NamedBlocks) (sources : FlowMap)
    (Meets : String → α → Prop) (Le : α → α → Prop) (s : State α) : Prop where
  keys : s.behind.keys = blocks.keys
  pending : ∀ n ∈ s.pending, n ∈ blocks.keys
  meets : ∀ n ∈ blocks.keys, Meets n (s.fact a n)
  rising : ∀ n ∈ blocks.keys, ∀ g, a.Computes blocks sources (s.fact a) n g → Le (s.fact a n) g
  settled : ∀ n ∈ blocks.keys, n ∉ s.pending →
    s.before.get? n = some (a.merged sources (s.fact a) n) ∧
      ∃ g, a.Computes blocks sources (s.fact a) n g ∧ a.same g (s.fact a n) = true

section Run

variable {Meets : String → α → Prop} {Le : α → α → Prop} {rank : α → Nat} {height : Nat}
  {rest : List String}

/-- How long a run can still go on: the pending blocks, and the edges from each block as often as the
fact behind it can still rise. -/
def remaining (a : Analysis α) (blocks : NamedBlocks) (targets : FlowMap) (rank : α → Nat)
    (height : Nat) (s : State α) : Nat :=
  s.pending.length +
    ∑ n ∈ blocks.keys.toFinset, (height - rank (s.fact a n)) * (targets.getD n []).length

section Step

variable {rest : List String} (w : Wires blocks sources targets)
  (pr : Progress a blocks sources Meets Le s) (hp : s.pending = n :: rest)
  (hg : a.Computes blocks sources (s.fact a) n g)
  (before : s'.before = s.before.put n (a.merged sources (s.fact a) n))
include pr hp hg before

lemma Progress.unchanged (same : a.same g (s.fact a n) = true) (behind : s'.behind = s.behind)
    (pending : s'.pending = rest) :
    Progress a blocks sources Meets Le s' ∧
      remaining a blocks targets rank height s' < remaining a blocks targets rank height s := by
  have fact : s'.fact a = s.fact a := by
    funext m
    rw [State.fact, behind, State.fact]
  refine ⟨⟨behind ▸ pr.keys, fun m hm => ?_, fact ▸ pr.meets, fact ▸ pr.rising,
    fun m hm hq => ?_⟩, ?_⟩
  · apply pr.pending m
    rw [hp]
    exact mem_cons_of_mem n (pending ▸ hm)
  · rw [fact, before]
    by_cases e : m = n
    · subst e
      exact ⟨get?_put_same, g, hg, same⟩
    · rw [get?_put_other e]
      apply pr.settled m hm
      rw [hp, mem_cons, not_or]
      exact ⟨e, pending ▸ hq⟩
  · rw [remaining, remaining, fact, pending, hp, length_cons]
    omega

include w

lemma Progress.raised (asc : Ascends a blocks sources Meets Le rank height) (gm : Meets n g)
    (behind : s'.behind = s.behind.put n g) (pending : s'.pending = rest ++ targets.getD n []) :
    Progress a blocks sources Meets Le s' := by
  have hn : n ∈ blocks.keys := pr.pending n (by simp [hp])
  have fact : ∀ m ≠ n, s'.fact a m = s.fact a m := fun m hm => by
    rw [State.fact, behind, getD_put_other hm, State.fact]
  have here : s'.fact a n = g := by rw [State.fact, behind, getD_put_same]
  have below : ∀ m, Le (s.fact a m) (s'.fact a m) := by
    intro m
    by_cases e : m = n
    · subst e
      exact here ▸ pr.rising m hn g hg
    · exact fact m e ▸ asc.refl _
  have meets : ∀ m ∈ blocks.keys, Meets m (s'.fact a m) := by
    intro m hm
    by_cases e : m = n
    · subst e
      exact here ▸ gm
    · exact fact m e ▸ pr.meets m hm
  -- A block that is not pending has no source whose fact has changed.
  have quiet : ∀ m, m ∉ s'.pending → ∀ p ∈ sources.getD m [], s.fact a p = s'.fact a p := by
    intro m hm p hpm
    refine (fact p ?_).symm
    rintro rfl
    apply hm
    rw [pending, mem_append]
    exact .inr ((w.converse p m).mp hpm)
  refine ⟨?_, fun m hm => ?_, meets, fun m hm g' hg' => ?_, fun m hm hq => ?_⟩
  · rw [behind, keys_put_of_mem (pr.keys ▸ hn), pr.keys]
  · rw [pending, mem_append] at hm
    obtain hm | hm := hm
    · exact pr.pending m (by simp [hp, hm])
    · rw [← w.sourceKeys]
      exact FlowMap.mem_keys_of_edge ((w.converse n m).mpr hm)
  · have old : ∀ p ∈ sources.getD m [], Meets p (s.fact a p) := fun p hp =>
      pr.meets p (w.mem_keys hp)
    obtain ⟨h, hh, -⟩ := asc.computes m hm (s.fact a) old
    have more : Le h g' :=
      asc.mono m _ _ _ _ (fun p hp => ⟨old p hp, meets p (w.mem_keys hp), below p⟩) hh hg'
    by_cases e : m = n
    · subst e
      rw [here, hg.unique hh]
      exact more
    · rw [fact m e]
      exact asc.trans _ _ _ (pr.rising m hm h hh) more
  · rw [← merged_congr (quiet m hq), before]
    by_cases e : m = n
    · subst e
      exact ⟨get?_put_same, g, hg.congr (quiet m hq), here ▸ asc.same m g gm⟩
    · have settled : m ∉ s.pending := by
        rw [hp, mem_cons, not_or]
        exact ⟨e, fun h => hq (pending ▸ mem_append_left _ h)⟩
      obtain ⟨hb, h, hh, same⟩ := pr.settled m hm settled
      rw [get?_put_other e, fact m e]
      exact ⟨hb, h, hh.congr (quiet m hq), same⟩

end Step

/-- A fact that rises makes up for the blocks that become pending. -/
lemma remaining_lt (hn : n ∈ blocks.keys) (hp : s.pending = n :: rest)
    (behind : s'.behind = s.behind.put n g) (pending : s'.pending = rest ++ targets.getD n [])
    (risen : rank (s.fact a n) < rank g) (most : rank g ≤ height) :
    remaining a blocks targets rank height s' < remaining a blocks targets rank height s := by
  have here : s'.fact a n = g := by rw [State.fact, behind, getD_put_same]
  have others : ∑ m ∈ blocks.keys.toFinset.erase n,
        (height - rank (s'.fact a m)) * (targets.getD m []).length =
      ∑ m ∈ blocks.keys.toFinset.erase n,
        (height - rank (s.fact a m)) * (targets.getD m []).length := by
    refine Finset.sum_congr rfl fun m hm => ?_
    rw [State.fact, behind, getD_put_other (Finset.ne_of_mem_erase hm), State.fact]
  have drop : (height - rank g) * (targets.getD n []).length + (targets.getD n []).length ≤
      (height - rank (s.fact a n)) * (targets.getD n []).length := by
    rw [← Nat.succ_mul]
    exact Nat.mul_le_mul_right _ (by omega)
  have mem : n ∈ blocks.keys.toFinset := mem_toFinset.mpr hn
  rw [remaining, remaining, ← Finset.add_sum_erase _ _ mem, ← Finset.add_sum_erase _ _ mem,
    here, pending, hp, length_append, length_cons]
  omega

variable (w : Wires blocks sources targets) (asc : Ascends a blocks sources Meets Le rank height)
include w asc

lemma Progress.step (pr : Progress a blocks sources Meets Le s) (hp : s.pending = n :: rest) :
    ∃ s', a.visit blocks sources targets n rest s = .ok s' ∧
      Progress a blocks sources Meets Le s' ∧
      remaining a blocks targets rank height s' < remaining a blocks targets rank height s := by
  have hn : n ∈ blocks.keys := pr.pending n (by simp [hp])
  obtain ⟨g, hg, gm⟩ := asc.computes n hn (s.fact a) fun p hp => pr.meets p (w.mem_keys hp)
  obtain ⟨s', hs', v⟩ := visit_visited rest w pr.keys hn hg
  refine ⟨s', hs', ?_⟩
  obtain ⟨same, behind, pending⟩ | ⟨changed, behind, pending⟩ := v.behind
  · exact pr.unchanged hp hg v.before same behind pending
  · have risen := asc.rises n _ _ (pr.meets n hn) gm (pr.rising n hn g hg) changed
    exact ⟨pr.raised w hp hg v.before asc gm behind pending,
      remaining_lt hn hp behind pending risen (asc.bounded n g gm)⟩

lemma Progress.run_total {fuel : Nat} (pr : Progress a blocks sources Meets Le s)
    (enough : remaining a blocks targets rank height s < fuel) :
    ∃ s', a.run blocks sources targets fuel s = .ok s' ∧
      Progress a blocks sources Meets Le s' ∧ s'.pending = [] := by
  induction fuel generalizing s with
  | zero => omega
  | succ fuel ih =>
    cases hp : s.pending with
    | nil => exact ⟨s, by simp [run, hp], pr, hp⟩
    | cons n rest =>
      obtain ⟨u, hu, pu, lt⟩ := pr.step w asc hp
      obtain ⟨s', hs', ps'⟩ := ih pu (by omega)
      refine ⟨s', ?_, ps'⟩
      simp only [run, hp]
      exact ok_bind hu hs'

omit w in
lemma progress_start (before : Table String α) :
    Progress a blocks sources Meets Le ⟨before, blocks.map fun _ => a.init, blocks.keys⟩ := by
  have fact : ∀ n, State.fact a ⟨before, blocks.map fun _ => a.init, blocks.keys⟩ n = a.init := by
    intro n
    rw [State.fact, Table.getD, get?_map]
    cases blocks.get? n <;> rfl
  refine ⟨keys_map, fun n hn => hn, fun n hn => ?_, fun n _ g _ => ?_, fun n hn hq => ?_⟩
  · rw [fact n]
    exact asc.init n hn
  · rw [fact n]
    exact asc.least g
  · exact absurd hn hq

end Run

/-- The facts before and behind the blocks solve the equations of the analysis. -/
structure Solution (a : Analysis α) (blocks : NamedBlocks) (sources : FlowMap)
    (Meets : String → α → Prop) (before behind : Table String α) : Prop where
  before : ∀ n ∈ blocks.keys,
    before.get? n = some (a.merged sources (fun p => behind.getD p a.init) n)
  behind : ∀ n ∈ blocks.keys, ∃ f, behind.get? n = some f ∧ Meets n f ∧
    ∃ g, a.Computes blocks sources (fun p => behind.getD p a.init) n g ∧ a.same g f = true

lemma edgeCount_eq (w : Wires blocks sources targets) :
    targets.values.foldl (fun n ts => n + ts.length) 0 =
      ∑ n ∈ blocks.keys.toFinset, (targets.getD n []).length := by
  have nd : targets.keys.Nodup := w.targetKeys ▸ w.nodup
  rw [← w.targetKeys, sum_toFinset _ nd]
  have values : targets.values = targets.keys.map fun n => targets.getD n [] := by
    conv_lhs => rw [Table.values, entries_eq_map_keys nd []]
    simp
  rw [values, foldl_map]
  have sum : ∀ (ks : List String) (z : Nat),
      ks.foldl (fun n k => n + (targets.getD k []).length) z =
        z + (ks.map fun k => (targets.getD k []).length).sum := by
    intro ks
    induction ks with
    | nil => simp
    | cons k ks ih =>
      intro z
      rw [foldl_cons, ih, map_cons, sum_cons]
      omega
  rw [sum, Nat.zero_add]

lemma remaining_lt_steps {rank : α → Nat} {height : Nat} (w : Wires blocks sources targets)
    (low : height ≤ 2 * (namesIn blocks).length) (hp : s.pending = blocks.keys) :
    remaining a blocks targets rank height s < steps blocks targets := by
  have bound : ∑ n ∈ blocks.keys.toFinset,
        (height - rank (s.fact a n)) * (targets.getD n []).length ≤
      (2 * (namesIn blocks).length + 1) *
        ∑ n ∈ blocks.keys.toFinset, (targets.getD n []).length := by
    rw [Finset.mul_sum]
    exact Finset.sum_le_sum fun n _ => Nat.mul_le_mul_right _ (by omega)
  have size : s.pending.length = blocks.size := by
    rw [hp]
    exact length_map _
  rw [remaining, steps, edgeCount_eq w]
  omega

variable {Meets : String → α → Prop} {Le : α → α → Prop} {rank : α → Nat} {height : Nat}

/-- An analysis whose facts only rise, and at most twice for every name, has its solution found. -/
theorem exists_solve {preds succs : FlowMap} (nonempty : blocks.entries ≠ [])
    (edges : blocks.edges = .ok (preds, succs))
    (w : Wires blocks (if a.forward then preds else succs) (if a.forward then succs else preds))
    (asc : Ascends a blocks (if a.forward then preds else succs) Meets Le rank height)
    (low : height ≤ 2 * (namesIn blocks).length) :
    ∃ before behind,
      a.solve blocks = .ok (if a.forward then (before, behind) else (behind, before)) ∧
      Solution a blocks (if a.forward then preds else succs) Meets before behind := by
  obtain ⟨first, hfirst⟩ : ∃ first, a.firstBlock blocks = .ok first := by
    have keys : blocks.keys ≠ [] := by simpa [Table.keys] using nonempty
    obtain ⟨n, hn⟩ : ∃ n, (if a.forward then blocks.keys.head? else blocks.keys.getLast?) = some n := by
      split
      · exact ⟨_, head?_eq_some_head keys⟩
      · exact ⟨_, getLast?_eq_some_getLast keys⟩
    exact ⟨n, by rw [firstBlock, hn]⟩
  obtain ⟨s, hs, pr, done⟩ := (progress_start asc (.ofList [(first, a.init)])).run_total
    w asc (remaining_lt_steps w low rfl)
  refine ⟨s.before, s.behind, ?_, ⟨fun n hn => ?_, fun n hn => ?_⟩⟩
  · unfold solve
    rw [edges]
    cases hf : a.forward with
    | true =>
      simp only [hf, if_true] at hs
      simp [hfirst, hs]
    | false =>
      simp only [hf, Bool.false_eq_true, if_false] at hs
      simp [hfirst, hs]
  · exact (pr.settled n hn (by simp [done])).1
  · obtain ⟨f, hf⟩ := mem_keys.mp (pr.keys ▸ hn)
    have fact : s.fact a n = f := by rw [State.fact, Table.getD, hf, Option.getD_some]
    exact ⟨f, hf, fact ▸ pr.meets n hn, fact ▸ (pr.settled n hn (by simp [done])).2⟩

lemma solve_cases (a : Analysis α) (blocks : NamedBlocks) :
    (blocks.entries ≠ [] ∧ blocks.Targeted) ∨ ∃ e, a.solve blocks = .error e ∧ e ≠ .unsettled := by
  cases edges : blocks.edges with
  | error e =>
    refine .inr ⟨e, by rw [solve, edges]; rfl, ?_⟩
    rintro rfl
    exact NamedBlocks.edges_ne_unsettled edges
  | ok r =>
    by_cases nonempty : blocks.entries = []
    · refine .inr ⟨.outOfRange, ?_, by simp⟩
      have first : a.firstBlock blocks = .error .outOfRange := by
        simp [firstBlock, Table.keys, nonempty]
      exact bind_eq_error.mpr (.inr ⟨_, edges, bind_eq_error.mpr (.inl first)⟩)
    · exact .inl ⟨nonempty, NamedBlocks.targeted_of_edges edges⟩

end Analysis

end BrilKit
