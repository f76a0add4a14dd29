import BrilKit.Proofs.Block.Explicit
import BrilKit.Proofs.Ssa.Placement
import BrilKit.Proofs.Ssa.Walk

/-!
# A conversion to single-assignment form, step by step

`Conversion` holds what `enter` computes for a function on the way to its result, so later modules
argue from its fields and never unfold `enter`. `count_visits` and `visit_unique` say that the walk
comes to every live block once, `edge_versions` which versions meet at an edge, and `get?_result`
and `phisOf_spec` read the result off the last state.
-/

namespace BrilKit

open List Outcome Table

namespace NamedBlocks

variable {t : NamedBlocks} {succ : FlowMap} {r a l : String}

lemma mem_targets {i : Instr} {ls : List String} {l : String}
    (h : targets i = .ok ls) : l ∈ ls ↔ i.Branches ∧ l ∈ i.labels.getD [] := by
  obtain ⟨op, hop, h⟩ := of_bind h
  have ho : i.op = some op := ofOption_eq_ok.mp hop
  split at h
  · next hc =>
    have hls : i.labels = some ls := ofOption_eq_ok.mp h
    have hbr : i.Branches := by simpa [Instr.Branches, ho] using hc
    simp [hbr, hls]
  · next hc =>
    have hbr : ¬ i.Branches := by simpa [Instr.Branches, ho] using hc
    split at h
    · obtain rfl := pure_eq_ok.mp h
      simp [hbr]
    · cases h

lemma exists_branch (h : t.successors = .ok succ) (e : succ.Edge a l) :
    ∃ b, t.get? a = some b ∧ ∃ i ∈ b, i.Branches ∧ l ∈ i.labels.getD [] := by
  obtain ⟨keys, all⟩ := successors_spec h
  obtain ⟨b, hb⟩ := mem_keys.mp (keys ▸ FlowMap.mem_keys_of_edge e)
  obtain ⟨ls, hls, hget⟩ := all a b hb
  have hl : l ∈ ls := by simpa [FlowMap.Edge, Table.getD, hget] using e
  unfold exits at hls
  split at hls
  · cases hls
  · next i hi => exact ⟨b, hb, i, mem_of_getLast? hi, (mem_targets hls).mp hl⟩

lemma head?_keys (h : t.entry = .ok r) : t.keys.head? = some r := by
  unfold entry at h
  split at h
  · next hk =>
    cases h
    rw [hk]
    rfl
  · cases h

lemma not_edge_entry {is : List Instr} (un : EntryUnnamed is) (ht : explicit is = .ok t)
    (hr : t.entry = .ok r) (hs : t.successors = .ok succ) (a : String) : ¬ succ.Edge a r := by
  intro h
  obtain ⟨b, hb, i, hi, hbr, hl⟩ := exists_branch hs h
  exact explicit_unnamed ht (head?_keys hr) hb hi (fun mem => un i mem hbr) hl

end NamedBlocks

namespace Ssa

open Dominators

def paramNames (f : Func) : List String := f.params.filterMap Param.name

/-- The intermediate results of a conversion. -/
structure Conversion (f : Func) where
  body : List Instr
  blocks : NamedBlocks
  succ : FlowMap
  entry : String
  dom : FlowMap
  frontiers : FlowMap
  types : Table String Ty
  args : List String
  phis : FlowMap
  tree : FlowMap
  state : Renaming
  result : NamedBlocks
  body_eq : f.body = .ok body
  blocks_eq : NamedBlocks.explicit body = .ok blocks
  succ_eq : blocks.successors = .ok succ
  entry_eq : blocks.entry = .ok entry
  dom_eq : compute succ entry = .ok dom
  frontiers_eq : Dominators.frontiers dom succ = .ok frontiers
  args_eq : (do (← f.paramList).mapM Param.getName) = .ok args
  phis_eq : placePhis blocks frontiers (definingBlocks blocks) = .ok phis
  tree_eq : Dominators.tree dom = .ok tree
  state_eq : rename phis succ tree (blocks.size + 1) entry
    { blocks
      versions := .ofList (args.map fun v => (v, [v]))
      sources := phis.map fun vs => .ofList (vs.map fun v => (v, []))
      results := .empty } = .ok state
  result_eq : withPhis state types = .ok result

lemma enter_conversion {f g : Func} (h : enter f = .ok g) :
    ∃ c : Conversion f, g = f.withBody c.result.reassemble := by
  obtain ⟨body, hbody, h⟩ := of_bind h
  obtain ⟨blocks, hblocks, h⟩ := of_bind h
  obtain ⟨succ, hsucc, h⟩ := of_bind h
  obtain ⟨entry, hentry, h⟩ := of_bind h
  obtain ⟨dom, hdom, h⟩ := of_bind h
  obtain ⟨fr, hfr, h⟩ := of_bind h
  obtain ⟨types, htypes, h⟩ := of_bind h
  obtain ⟨ps, hps, h⟩ := of_bind h
  obtain ⟨args, hargs, h⟩ := of_bind h
  obtain ⟨phis, hphis, h⟩ := of_bind h
  obtain ⟨tree, htree, h⟩ := of_bind h
  obtain ⟨state, hstate, h⟩ := of_bind h
  obtain ⟨result, hresult, h⟩ := of_bind h
  exact ⟨⟨body, blocks, succ, entry, dom, fr, types, args, phis, tree, state, result, hbody,
    hblocks, hsucc, hentry, hdom, hfr, ok_bind hps hargs, hphis, htree, hstate,
    hresult⟩, (pure_eq_ok.mp h).symm⟩

namespace Conversion

variable {f : Func} (c : Conversion f) {n x : String} {b : Block}

def Live (n : String) : Prop := Reach c.succ.Edge c.entry n

def Assigned (x : String) : Prop := ∃ i ∈ c.body, i.dest = some x

/-- The names of versions: those with a number for a variable that is assigned, and the parameters. -/
def Version (x n : String) : Prop :=
  (c.Assigned x ∧ ∃ k : Nat, n = versionOf x k) ∨ (n = x ∧ x ∈ c.args)

lemma body_getD : f.instrs.getD [] = c.body := by
  have h := c.body_eq
  rw [Func.body, ofOption_eq_ok] at h
  rw [h, Option.getD_some]

lemma map_name_params : f.params.map Param.name = c.args.map some := by
  obtain ⟨ps, hps, hargs⟩ := of_bind c.args_eq
  have hparams : f.params = ps := by
    obtain ⟨o, ho, hps⟩ := of_bind hps
    obtain rfl := pure_eq_ok.mp hps
    unfold Func.paramList? at ho
    unfold Func.params
    split at ho <;> cases ho <;> simp_all
  rw [hparams]
  have all := mapM_eq_ok.mp hargs
  clear hargs hps hparams
  generalize c.args = args at all ⊢
  induction all with
  | nil => rfl
  | cons h _ ih => rw [map_cons, map_cons, ofOption_eq_ok.mp h, ih]

lemma succ_spec : c.succ.keys = c.blocks.keys ∧ ∀ n b, c.blocks.get? n = some b →
    ∃ ls, NamedBlocks.exits b = .ok ls ∧ c.succ.get? n = some ls :=
  NamedBlocks.successors_spec c.succ_eq

lemma entry_eq_head : c.blocks.keys.head? = some c.entry := NamedBlocks.head?_keys c.entry_eq

lemma nodup_keys : c.blocks.keys.Nodup := NamedBlocks.nodup_explicit c.blocks_eq

lemma nodup_succ : c.succ.keys.Nodup := c.succ_spec.1 ▸ c.nodup_keys

lemma phisFor : PhisFor c.frontiers c.blocks.keys (definingBlocks c.blocks) c.phis := by
  obtain ⟨phis, run, ph⟩ := exists_placePhis nodup_definingBlocks
    (c.succ_spec.1 ▸ frontiersOn c.nodup_succ c.dom_eq c.frontiers_eq) fun _ _ => mem_keys_of_defines
  rwa [← Except.ok.inj (run.symm.trans c.phis_eq)]

lemma assigned_of_mem {i : Instr} (hb : c.blocks.get? n = some b) (hi : i ∈ b)
    (hx : i.dest = some x) : c.Assigned x := by
  obtain hi | on := NamedBlocks.mem_explicit c.blocks_eq hb hi
  · exact ⟨i, hi, hx⟩
  · rw [on.op.2.1] at hx
    cases hx

lemma exists_branch {a l : String} (h : c.succ.Edge a l) :
    ∃ b, c.blocks.get? a = some b ∧ ∃ i ∈ b, i.Branches ∧ l ∈ i.labels.getD [] :=
  NamedBlocks.exists_branch c.succ_eq h

def EntryFree : Prop := ∀ a, ¬ c.succ.Edge a c.entry

lemma entryFree_of_unnamed (un : NamedBlocks.EntryUnnamed c.body) : c.EntryFree :=
  NamedBlocks.not_edge_entry un c.blocks_eq c.entry_eq c.succ_eq

section Blocks

variable (wk : Workable c.body) {n : String} {b : Block}
include wk

lemma block_items (h : c.blocks.get? n = some b) :
    (∀ i ∈ b, i.label = none ∧ ∃ op, i.op = some op ∧ op ≠ "phi") ∧ Block.Ended b = true ∧
      (∀ done i todo, b = done ++ i :: todo → i.isTerminator = true → todo = []) ∧
      ∀ i ∈ b, ∀ x, i.dest = some x → c.Assigned x := by
  obtain ⟨⟨ops, is, last, rfl, hlast, hopen⟩, plain⟩ := wk.block c.blocks_eq h
  refine ⟨fun i hi => ⟨plain i hi, ?_⟩, by simpa [Block.Ended] using hlast,
    Block.unbroken_append hopen, fun i hi x hx => c.assigned_of_mem h hi hx⟩
  obtain mem | on := NamedBlocks.mem_explicit c.blocks_eq h hi
  · obtain ⟨op, ho⟩ := Option.isSome_iff_exists.mp (ops i hi)
    exact ⟨op, ho, fun e => wk.phiFree i mem (e ▸ ho)⟩
  · exact on.op.2.2.2

lemma edge_iff {a l : String} : c.succ.Edge a l ↔
    ∃ b, c.blocks.get? a = some b ∧ ∃ i ∈ b, i.Branches ∧ l ∈ i.labels.getD [] := by
  refine ⟨c.exists_branch, ?_⟩
  rintro ⟨b, hb, i, hi, hbr, hl⟩
  obtain ⟨ls, hls, hget⟩ := c.succ_spec.2 a b hb
  obtain ⟨_, _, ends, _⟩ := c.block_items wk hb
  -- A terminator stands last.
  have hlast : b.getLast? = some i := by
    obtain ⟨done, todo, rfl⟩ := append_of_mem hi
    obtain rfl := ends done i todo rfl (Instr.isTerminator_of_branches hbr)
    simp
  unfold NamedBlocks.exits at hls
  rw [hlast] at hls
  have hmem := (NamedBlocks.mem_targets hls).mpr ⟨hbr, hl⟩
  simpa [FlowMap.Edge, Table.getD, hget] using hmem

lemma entryFree : c.EntryFree := c.entryFree_of_unnamed wk.entryUnnamed

end Blocks

section Free

variable (free : c.EntryFree) {b x : String}
include free

lemma computed : Computed c.succ c.entry c.dom := compute_spec c.nodup_succ free c.dom_eq

lemma phi_sound (h : x ∈ c.phis.getD b []) : c.Assigned x ∧ ∃ p, c.succ.Edge p b := by
  obtain ⟨d, b', hb, ⟨i, hi, hx⟩, path⟩ := c.phisFor.defined c.nodup_keys h
  obtain ⟨d, -, hd⟩ := Relation.TransGen.tail'_iff.mp path
  obtain ⟨⟨p, _, e⟩, _⟩ := ((c.computed free).mem_frontiers c.nodup_succ c.frontiers_eq).mp hd
  exact ⟨c.assigned_of_mem hb hi hx, p, e⟩

lemma phi_live (h : x ∈ c.phis.getD b []) : c.Live b := by
  have cp := c.computed free
  obtain ⟨_, _, _, _, path⟩ := c.phisFor.defined c.nodup_keys h
  obtain ⟨d, -, hd⟩ := Relation.TransGen.tail'_iff.mp path
  obtain ⟨⟨p, hp, e⟩, hb⟩ := (cp.mem_frontiers c.nodup_succ c.frontiers_eq).mp hd
  have hlive : c.Live d := by
    by_cases hpl : c.Live p
    · exact ((cp.exact p hpl d).mp hp).reach
    · exact (cp.others p (FlowMap.mem_keys_of_edge e) hpl d).mp hp
  by_contra hdead
  have hkey : b ∈ c.succ.keys := by
    rw [c.succ_spec.1, ← c.phisFor.keys]
    by_contra hb
    simp [Table.getD, get?_eq_none.mpr hb] at h
  obtain hb | rfl := hb
  · exact hb ((cp.others b hkey hdead d).mpr hlive)
  · exact hdead hlive

end Free

def start : Renaming where
  blocks := c.blocks
  versions := .ofList (c.args.map fun v => (v, [v]))
  sources := c.phis.map fun vs => .ofList (vs.map fun v => (v, []))
  results := .empty

lemma inForceBy_start : inForceBy c.start.versions x n ↔ x ∈ c.args ∧ n = x := by
  simp only [inForceBy, start, Table.getD, get?_ofList_map]
  by_cases hx : x ∈ c.args <;> simp [hx, eq_comm]

def Visits (vs : List Visit) : Prop := Walk c.phis c.succ c.tree [c.entry] c.start vs c.state

lemma exists_visits : ∃ vs, c.Visits vs := rename_walk c.phisFor.nodup c.state_eq

section Visits

variable {vs : List Visit} (free : c.EntryFree) (w : c.Visits vs) {n x : String} {u v : Visit}
include free w

open Classical in
lemma count_visits (hn : c.Live n) : vs.countP (fun u => u.block == n) = 1 := by
  rw [Walk.count (c.computed free) c.nodup_succ c.tree_eq w hn]
  simp [Dominates.root hn]

lemma exists_visit (hn : c.Live n) : ∃ u ∈ vs, Walk.Once c.phis c.start c.state n u :=
  w.visited_once (c.count_visits free w hn)

lemma visit_unique (hu : u ∈ vs) (hv : v ∈ vs) (e : u.block = v.block) (hn : c.Live v.block) :
    u = v := by
  have count := c.count_visits free w hn
  rw [countP_eq_length_filter] at count
  obtain ⟨x, hx⟩ := length_eq_one_iff.mp count
  have hux : u ∈ vs.filter fun u => u.block == v.block := mem_filter.mpr ⟨hu, by simp [e]⟩
  have hvx : v ∈ vs.filter fun u => u.block == v.block := mem_filter.mpr ⟨hv, by simp⟩
  rw [hx, mem_singleton] at hux hvx
  rw [hux, hvx]

lemma visit_keeps (hu : u ∈ vs) (hn : c.Live u.block) (hphi : x ∉ c.phis.getD u.block [])
    (hcode : ∀ b, c.blocks.get? u.block = some b → ∀ i ∈ b, i.dest ≠ some x) :
    u.final.getD x [] = u.before.getD x [] := by
  obtain ⟨v, hv, on⟩ := c.exists_visit free w hn
  obtain rfl := c.visit_unique free w hv hu on.block hn
  obtain ⟨s₁, s₂, h₁, h₂, hi⟩ := on.instrs
  rw [← on.carried x hphi, ← h₁, ← h₂]
  exact Renaming.instrs_versions hi (hcode v.code on.found)

/-- A variable that nothing assigns between a block and a dominator of it has the same versions at
the end of both. -/
lemma same_versions (hu : u ∈ vs) (hv : v ∈ vs)
    (hdom : Dominates c.succ.Edge c.entry v.block u.block)
    (hx : ∀ z, Dominates c.succ.Edge c.entry v.block z → Dominates c.succ.Edge c.entry z u.block →
      z ≠ v.block → x ∉ c.phis.getD z [] ∧
        ∀ b, c.blocks.get? z = some b → ∀ i ∈ b, i.dest ≠ some x) :
    u.final.getD x [] = v.final.getD x [] := by
  have cp := c.computed free
  have nd := c.nodup_succ
  induction w.rooted u hu with
  | @root u hu hr _ =>
    obtain hentry : u.block = c.entry := by simpa using hr
    have e : v.block = u.block := by
      rw [hentry] at hdom ⊢
      exact hdom.eq_root
    rw [c.visit_unique free w hv hu e hdom.1]
  | @child p u hp hu hc hb ih =>
    by_cases e : v.block = u.block
    · rw [c.visit_unique free w hv hu e hdom.1]
    · obtain ⟨hpu, hne, hpar⟩ := cp.parent_spec nd c.tree_eq hdom.1 hc
      obtain ⟨hphi, hcode⟩ := hx u.block hdom (.refl hdom.1) (Ne.symm e)
      rw [c.visit_keeps free w hu hdom.1 hphi hcode, hb]
      exact ih hp.mem (hpar v.block hdom e) fun z hz hzp => hx z hz (hzp.trans hpu)

/-- Along an edge a variable without a phi keeps its versions. -/
theorem edge_versions (hu : u ∈ vs) (hv : v ∈ vs) (hlive : c.Live u.block)
    (e : c.succ.Edge u.block v.block) (hphi : x ∉ c.phis.getD v.block []) :
    v.start.getD x [] = u.final.getD x [] := by
  have cp := c.computed free
  have nd := c.nodup_succ
  have hlive' : c.Live v.block := hlive.step e
  have hstart : v.start.getD x [] = v.before.getD x [] := by
    obtain ⟨v', hv', on⟩ := c.exists_visit free w hlive'
    obtain rfl := c.visit_unique free w hv' hv on.block hlive'
    exact on.carried x hphi
  rw [hstart]
  cases w.rooted v hv with
  | root _ hr _ =>
    obtain hentry : v.block = c.entry := by simpa using hr
    exact absurd (hentry ▸ e) (free u.block)
  | @child p _ hp _ hc hb =>
    obtain ⟨hpv, hne, hpar⟩ := cp.parent_spec nd c.tree_eq hlive' hc
    have hpu := hpv.of_edge (Ne.symm hne) hlive e
    rw [hb]
    refine (c.same_versions free w hu hp.mem hpu fun z hpz hzu hzp => ?_).symm
    -- Below the parent no dominator of the predecessor dominates the block strictly.
    have hfr : v.block ∈ c.frontiers.getD z [] := by
      refine (cp.mem_frontiers nd c.frontiers_eq).mpr
        ⟨⟨u.block, (cp.exact _ hlive z).mpr hzu, e⟩, ?_⟩
      by_cases hzv : v.block = z
      · exact .inr hzv
      · refine .inl fun hz => hzp ?_
        exact (hpar z ((cp.exact _ hlive' z).mp hz) (Ne.symm hzv)).antisymm hpz
    refine ⟨fun h => hphi (c.phisFor.of_frontier hfr (.inl h)), fun b hb i hi hx => ?_⟩
    exact hphi (c.phisFor.of_frontier hfr (.inr ⟨b, hb, i, hi, hx⟩))

end Visits

/-- The phis of a block, from what the walk has collected. -/
def phisOf (n : String) : Block :=
  match ((c.state.sources.getD n .empty).entries.mergeSort fun a b => decide (a.1 ≤ b.1)).mapM
      (phi c.state c.types n) with
  | .ok is => is.reverse
  | .error _ => []

def phiVars (n : String) : List String :=
  (((c.state.sources.getD n .empty).entries.mergeSort fun a b => decide (a.1 ≤ b.1)).map
    Prod.fst).reverse

/-- The phi for a variable in a block. -/
structure IsPhi (n x : String) (i : Instr) : Prop where
  op : i.op = some "phi"
  dest : i.dest = (c.state.results.getD n .empty).get? x
  type : ∃ t, i.type = some t
  labels : i.labels = some ((c.state.operands n x).map Prod.fst)
  args : i.args = some ((c.state.operands n x).map Prod.snd)
  label : i.label = none

lemma result_entries : c.result.entries =
    c.state.blocks.entries.map (fun e => (e.1, c.phisOf e.1 ++ e.2)) ∧
    ∀ n ∈ c.state.blocks.keys, ∃ is,
      ((c.state.sources.getD n .empty).entries.mergeSort fun a b => decide (a.1 ≤ b.1)).mapM
        (phi c.state c.types n) = .ok is ∧ c.phisOf n = is.reverse := by
  obtain ⟨es, hes, h⟩ := of_bind c.result_eq
  have hr := pure_eq_ok.mp h
  rw [← hr]
  have all := mapM_eq_ok.mp hes
  simp only [Table.keys]
  clear hes h hr
  generalize c.state.blocks.entries = blocks at all ⊢
  induction all with
  | nil => simp
  | @cons e e' es es' he _ ih =>
    obtain ⟨is, his, he⟩ := of_bind he
    have he := pure_eq_ok.mp he
    have hphis : c.phisOf e.1 = is.reverse := by
      unfold phisOf
      rw [his]
    refine ⟨?_, fun n hn => ?_⟩
    · rw [map_cons, ← ih.1, ← he, hphis]
    · rw [map_cons, mem_cons] at hn
      obtain rfl | hn := hn
      · exact ⟨is, his, hphis⟩
      · exact ih.2 n hn

lemma get?_result :
    c.result.get? n = some b ↔ ∃ b', c.state.blocks.get? n = some b' ∧ b = c.phisOf n ++ b' := by
  have get : c.result.get? n = (c.state.blocks.get? n).map (c.phisOf n ++ ·) := by
    rw [← get?_mapEntries (g := fun n b => c.phisOf n ++ b), ← c.result_entries.1]
  rw [get, Option.map_eq_some_iff]
  simp only [eq_comm]

lemma start_operands (n x : String) : c.start.operands n x = [] := Renaming.getD_sources

section Visits

variable {vs : List Visit} (w : c.Visits vs) {n : String}
include w

lemma keys_result : c.result.keys = c.blocks.keys := by
  have hkeys : c.state.blocks.keys = c.blocks.keys := w.blockKeys
  rw [← hkeys, Table.keys, c.result_entries.1, map_map]
  rfl

/-- The phis of a block are for variables of their own. -/
lemma phisOf_spec (hn : n ∈ c.state.blocks.keys) :
    (c.phiVars n).Nodup ∧ (∀ x, x ∈ c.phiVars n ↔ x ∈ c.phis.getD n []) ∧
      Forall₂ (c.IsPhi n) (c.phiVars n) (c.phisOf n) := by
  have perm := mergeSort_perm (c.state.sources.getD n .empty).entries
    fun a b => decide (a.1 ≤ b.1)
  have keys : ∀ x, x ∈ (c.state.sources.getD n .empty).keys ↔ x ∈ c.phis.getD n [] := by
    intro x
    rw [w.sourceKeys, start, Renaming.keys_sources (c.phisFor.nodup n)]
    refine ⟨?_, .inl⟩
    rintro (h | ⟨_, _, _, _, hx, _⟩)
    · exact h
    · exact hx
  have nd : (c.state.sources.getD n .empty).keys.Nodup := by
    refine w.nodupSources (fun m => ?_) n
    rw [start, Renaming.keys_sources (c.phisFor.nodup m)]
    exact c.phisFor.nodup m
  refine ⟨?_, fun x => ?_, ?_⟩
  · rw [phiVars, nodup_reverse, (perm.map Prod.fst).nodup_iff]
    exact nd
  · rw [phiVars, mem_reverse, (perm.map Prod.fst).mem_iff]
    exact keys x
  · obtain ⟨is, his, e⟩ := c.result_entries.2 n hn
    rw [e, phiVars, forall₂_reverse_iff, forall₂_map_left_iff]
    obtain ⟨len, all⟩ := forall₂_iff_zip.mp (mapM_eq_ok.mp his)
    refine forall₂_iff_zip.mpr ⟨len, fun {e i} hz => ?_⟩
    have he : e ∈ (c.state.sources.getD n .empty).entries := perm.mem_iff.mp (of_mem_zip hz).1
    have hops : c.state.operands n e.1 = e.2 := by
      rw [Renaming.operands, Table.getD, get?_of_mem nd he, Option.getD_some]
    obtain ⟨t, _, hphi⟩ := of_bind (all hz)
    obtain rfl := pure_eq_ok.mp hphi
    exact ⟨rfl, rfl, ⟨t, rfl⟩, by rw [hops], by rw [hops], rfl⟩

lemma exists_isPhi (hn : n ∈ c.state.blocks.keys) {i : Instr} (hi : i ∈ c.phisOf n) :
    ∃ x ∈ c.phis.getD n [], c.IsPhi n x i := by
  obtain ⟨_, mem, all⟩ := c.phisOf_spec w hn
  obtain ⟨x, hx, isPhi⟩ := exists_of_mem_right all hi
  exact ⟨x, (mem x).mp hx, isPhi⟩

lemma exists_phi (hn : n ∈ c.state.blocks.keys) {x : String} (hx : x ∈ c.phis.getD n []) :
    ∃ i ∈ c.phisOf n, c.IsPhi n x i := by
  obtain ⟨_, mem, all⟩ := c.phisOf_spec w hn
  exact exists_of_mem_right all.flip ((mem x).mpr hx)

variable {u : Visit} {x : String}

lemma exists_shape (wk : Workable c.body) {b' : Block}
    (h : c.state.blocks.get? n = some b') {i : Instr} (hi : i ∈ b') :
    ∃ j : Instr, i.shape = j.shape ∧ j.label = none ∧ ∃ op, j.op = some op ∧ op ≠ "phi" := by
  obtain ⟨b, hb, e⟩ := Walk.shapes w h
  have hmem : i.shape ∈ b'.map Instr.shape := mem_map_of_mem hi
  rw [e] at hmem
  obtain ⟨j, hj, hs⟩ := mem_map.mp hmem
  exact ⟨j, hs.symm, (c.block_items wk hb).1 j hj⟩

lemma operand_of_live (free : c.EntryFree) {l o : String} (h : (l, o) ∈ c.state.operands n x)
    (hu : u ∈ vs) (hl : u.block = l) (hlive : c.Live l) :
    c.succ.Edge l n ∧ o = Renaming.handed u.final x := by
  rw [w.operands, start_operands] at h
  obtain ⟨v, hv, e, _, hp⟩ := h.resolve_left (by simp)
  obtain ⟨rfl, rfl⟩ := Prod.mk.inj hp
  rw [c.visit_unique free w hu hv hl hlive]
  exact ⟨e, rfl⟩

lemma exists_operand (hu : u ∈ vs) (e : c.succ.Edge u.block n) (hx : x ∈ c.phis.getD n []) :
    (u.block, Renaming.handed u.final x) ∈ c.state.operands n x := by
  rw [w.operands]
  exact .inr ⟨u, hu, e, hx, rfl⟩

end Visits

end Conversion

end Ssa

end BrilKit
