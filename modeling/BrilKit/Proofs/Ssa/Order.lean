import BrilKit.Proofs.Ssa.Conversion
import Mathlib

/-!
# The order of sets

The blocks that assign a variable, the frontiers and the variables with a phi are sets, which are
gone through in some order. The order has no influence on where phis are placed and on the function
that the conversion gives.
-/

namespace BrilKit

open List Outcome Table

namespace Ssa

/-- An order for each set of a map. -/
structure SetOrder where
  apply : FlowMap → FlowMap
  keys : ∀ m, (apply m).keys = m.keys
  perm : ∀ m k, ((apply m).getD k []).Perm (m.getD k [])

lemma getD_map_reverse {m : FlowMap} {k : String} :
    (m.map reverse).getD k [] = (m.getD k []).reverse := by
  simp only [Table.getD, get?_map]
  cases m.get? k <;> rfl

def SetOrder.reversed : SetOrder where
  apply m := m.map reverse
  keys _ := keys_map
  perm _ _ := by
    rw [getD_map_reverse]
    exact reverse_perm _

/-- The conversion with the sets gone through in given orders. -/
def enterBy (defOrder frontierOrder phiOrder : SetOrder) (f : Func) : Outcome Func := do
  let blocks ← NamedBlocks.explicit (← f.body)
  let succ ← blocks.successors
  let entry ← blocks.entry
  let dom ← Dominators.compute succ entry
  let frontiers ← Dominators.frontiers dom succ
  let types ← variableTypes f
  let args ← (← f.paramList).mapM Param.getName
  let placed ← placePhis blocks (frontierOrder.apply frontiers)
    (defOrder.apply (definingBlocks blocks))
  let phis := phiOrder.apply placed
  let tree ← Dominators.tree dom
  let start : Renaming :=
    { blocks
      versions := .ofList (args.map fun v => (v, [v]))
      sources := phis.map fun vs => .ofList (vs.map fun v => (v, []))
      results := .empty }
  let s ← rename phis succ tree (blocks.size + 1) entry start
  return f.withBody (← withPhis s types).reassemble

/-- Two lists of the same set. -/
structure SameSet (vs ws : List String) : Prop where
  nodup : vs.Nodup ∧ ws.Nodup
  mem : ∀ x, x ∈ ws ↔ x ∈ vs

/-- Two states that differ in the order of their tables at most. -/
structure Alike (s t : Renaming) : Prop where
  blocks : t.blocks = s.blocks
  versions : ∀ x, t.versions.getD x [] = s.versions.getD x []
  counts : ∀ x, t.counts.getD x 0 = s.counts.getD x 0
  operands : ∀ c x, t.operands c x = s.operands c x
  sources : ∀ c, SameSet (s.sources.getD c .empty).keys (t.sources.getD c .empty).keys
  results : ∀ c x, (t.results.getD c .empty).get? x = (s.results.getD c .empty).get? x

section Steps

variable {s t : Renaming} {v block target : String} {vs ws : List String} (h : Alike s t)
include h

lemma Alike.push_fst : (t.push v).1 = (s.push v).1 := by
  rw [Renaming.push_fst, Renaming.push_fst, h.counts]

lemma Alike.push : Alike (s.push v).2 (t.push v).2 where
  blocks := h.blocks
  versions x := by
    by_cases hx : x = v
    · rw [hx, Renaming.push_versions_same, Renaming.push_versions_same, h.push_fst, h.versions]
    · rw [Renaming.push_versions_other hx, Renaming.push_versions_other hx, h.versions]
  counts x := by
    by_cases hx : x = v
    · simp only [hx, Renaming.push, getD_put_same, h.counts]
    · simp only [Renaming.push, getD_put_other hx, h.counts]
  operands := h.operands
  sources := h.sources
  results := h.results

lemma Alike.instr (i : Instr) :
    Parallel (fun p q => q.1 = p.1 ∧ Alike p.2 q.2) (s.instr i) (t.instr i) := by
  have current : t.current = s.current := by
    funext x
    rw [Renaming.current, h.versions, Renaming.current]
  unfold Renaming.instr
  rw [current]
  refine Parallel.bind_same fun args _ => ?_
  cases i.dest with
  | none => exact .ok ⟨rfl, h⟩
  | some d => exact .ok ⟨by rw [h.counts], h.push⟩

lemma Alike.instrs (is : Block) :
    Parallel (fun p q => q.1 = p.1 ∧ Alike p.2 q.2) (s.instrs is) (t.instrs is) := by
  induction is generalizing s t with
  | nil => exact .ok ⟨rfl, h⟩
  | cons i is ih =>
    refine (h.instr i).bind fun p q hi => ?_
    refine (ih hi.2).bind fun p' q' his => .ok ⟨?_, his.2⟩
    simp only [hi.1, his.1]

lemma Alike.startPhis (same : SameSet vs ws) :
    Alike (s.startPhis block vs) (t.startPhis block ws) := by
  have st := Renaming.startPhis_started s block same.nodup.1
  have st' := Renaming.startPhis_started t block same.nodup.2
  refine ⟨by rw [st.blocks, st'.blocks, h.blocks], fun x => ?_, fun x => ?_, fun c x => ?_,
    fun c => ?_, fun c x => ?_⟩
  · by_cases hx : x ∈ vs
    · rw [(st.phis x hx).1, (st'.phis x ((same.mem x).mpr hx)).1, h.push_fst, h.versions]
    · rw [st.versions x hx, st'.versions x (mt (same.mem x).mp hx), h.versions]
  · by_cases hx : x ∈ vs
    · rw [(st.phis x hx).2.1, (st'.phis x ((same.mem x).mpr hx)).2.1, h.counts]
    · rw [st.counts x hx, st'.counts x (mt (same.mem x).mp hx), h.counts]
  · rw [Renaming.operands, st'.sources, Renaming.operands, st.sources]
    exact h.operands c x
  · rw [st.sources, st'.sources]
    exact h.sources c
  · by_cases hc : c = block
    · subst hc
      by_cases hx : x ∈ vs
      · rw [(st.phis x hx).2.2, (st'.phis x ((same.mem x).mpr hx)).2.2, h.push_fst]
      · rw [st.kept x hx, st'.kept x (mt (same.mem x).mp hx), h.results]
    · rw [Table.getD, st'.elsewhere c hc, Table.getD, st.elsewhere c hc]
      exact h.results c x

lemma Alike.feed (same : SameSet vs ws) :
    Alike (s.feed block target vs) (t.feed block target ws) := by
  have fed := Renaming.feed_fed s block target same.nodup.1
  have fed' := Renaming.feed_fed t block target same.nodup.2
  have handed : ∀ x, Renaming.handed t.versions x = Renaming.handed s.versions x := fun x => by
    rw [Renaming.handed, h.versions, Renaming.handed]
  have nodup := fun c => (h.sources c).nodup
  refine ⟨by rw [fed.blocks, fed'.blocks, h.blocks], fun x => ?_, fun x => ?_, fun c x => ?_,
    fun c => ⟨⟨fed.nodup (fun c => (nodup c).1) c, fed'.nodup (fun c => (nodup c).2) c⟩, fun x => ?_⟩,
    fun c x => ?_⟩
  · rw [fed.versions, fed'.versions, h.versions]
  · rw [fed.counts, fed'.counts, h.counts]
  · simp only [fed.operands, fed'.operands, h.operands, same.mem, handed]
  · simp only [fed.keys, fed'.keys, (h.sources c).mem, same.mem, handed]
  · rw [fed.results, fed'.results, h.results]

/-- The entries for the phis of a block are the same once they are sorted. -/
lemma Alike.collected (c : String) :
    ((t.sources.getD c .empty).entries.mergeSort fun a b => decide (a.1 ≤ b.1)) =
      (s.sources.getD c .empty).entries.mergeSort fun a b => decide (a.1 ≤ b.1) := by
  obtain ⟨⟨nd, nd'⟩, mem⟩ := h.sources c
  have entries : (t.sources.getD c .empty).entries.Perm (s.sources.getD c .empty).entries := by
    rw [entries_eq_map_keys nd [], entries_eq_map_keys nd' []]
    have operands : (fun x => (x, (t.sources.getD c .empty).getD x [])) =
        fun x => (x, (s.sources.getD c .empty).getD x []) := funext fun x => by
      exact congrArg (x, ·) (h.operands c x)
    rw [operands]
    exact ((perm_ext_iff_of_nodup nd' nd).mpr mem).map _
  have sorted := @pairwise_mergeSort _ (fun a b : String × Sources => decide (a.1 ≤ b.1))
    (fun a b c => by simpa using String.le_trans) (fun a b => by simpa using String.le_total a.1 b.1)
  refine Perm.eq_of_pairwise (fun a b ha hb hab hba => ?_) (sorted _) (sorted _)
    ((mergeSort_perm _ _).trans (entries.trans (mergeSort_perm _ _).symm))
  have key : a.1 = b.1 := String.le_antisymm (by simpa using hab) (by simpa using hba)
  have get : some a.2 = some b.2 := by
    rw [← get?_of_mem nd ((mergeSort_perm _ _).mem_iff.mp hb), ← key]
    exact (get?_of_mem nd (entries.mem_iff.mp ((mergeSort_perm _ _).mem_iff.mp ha))).symm
  exact Prod.ext key (Option.some.inj get)

lemma Alike.withPhis (types : Table String Ty) : withPhis t types = withPhis s types := by
  have phi : ∀ n, phi t types n = phi s types n := by
    intro n
    funext e
    simp only [Ssa.phi, h.results]
  simp only [Ssa.withPhis, h.blocks, h.collected, phi]

end Steps

section Orders

variable {blocks : NamedBlocks} {defs fr phis phis' succ tree : FlowMap}
  (defOrder frontierOrder phiOrder : SetOrder)

/-- Two maps of the same sets. -/
structure SameSets (m m' : FlowMap) : Prop where
  keys : m'.keys = m.keys
  sets : ∀ k, SameSet (m.getD k []) (m'.getD k [])

lemma SameSets.fetch (same : SameSets phis phis') (k : String) :
    Parallel SameSet (phis.fetch k) (phis'.fetch k) := by
  by_cases hk : k ∈ phis.keys
  · rw [fetch_of_mem [] hk, fetch_of_mem [] (same.keys ▸ hk)]
    exact .ok (same.sets k)
  · rw [Table.fetch, Table.fetch, get?_eq_none.mpr hk, get?_eq_none.mpr (same.keys ▸ hk)]
    exact .error

/-- The walk down the dominator tree leads to states that are alike. -/
lemma rename_alike {s t : Renaming} {block : String} {fuel : Nat} (same : SameSets phis phis')
    (h : Alike s t) :
    Parallel Alike (rename phis succ tree fuel block s) (rename phis' succ tree fuel block t) := by
  induction fuel generalizing block s t with
  | zero => exact .error
  | succ fuel ih =>
    rw [rename, rename]
    refine (same.fetch block).bind fun vs ws hvs => ?_
    have started : Alike (s.startPhis block vs) (t.startPhis block ws) := h.startPhis hvs
    dsimp only
    rw [started.blocks]
    refine Parallel.bind_same fun code _ => (started.instrs code).bind fun p q hpq => ?_
    refine Parallel.bind_same fun ss _ => ?_
    refine Parallel.bind (R := Alike) (.foldlM (fun target s t hst => ?_) ?_) fun s₂ t₂ h₂ => ?_
    · exact (same.fetch target).bind fun vs ws hvs => .ok (hst.feed hvs)
    · exact { hpq.2 with blocks := by simp only [hpq.1, hpq.2.blocks] }
    · refine Parallel.bind_same fun cs _ => ?_
      refine Parallel.bind (R := Alike) (.foldlM (fun child s t hst => ?_) h₂) fun s₃ t₃ h₃ => ?_
      · exact ih hst
      · exact .ok { h₃ with versions := h.versions }

/-- Phis are placed in the same blocks for all orders. -/
lemma exists_sameSets (nd : defs.keys.Nodup) (on : FrontiersOn fr blocks.keys)
    (within : ∀ v, ∀ d ∈ defs.getD v [], d ∈ blocks.keys) :
    ∃ phis placed, placePhis blocks fr defs = .ok phis ∧
      placePhis blocks (frontierOrder.apply fr) (defOrder.apply defs) = .ok placed ∧
      SameSets phis (phiOrder.apply placed) := by
  have on' : FrontiersOn (frontierOrder.apply fr) blocks.keys := by
    intro d hd
    obtain ⟨bs, hbs, sub⟩ := on d hd
    have key : d ∈ (frontierOrder.apply fr).keys :=
      frontierOrder.keys fr ▸ mem_keys.mpr ⟨bs, fetch_eq_ok.mp hbs⟩
    refine ⟨_, fetch_of_mem [] key, fun b hb => sub b ?_⟩
    rwa [(frontierOrder.perm fr d).mem_iff, getD_of_fetch hbs] at hb
  obtain ⟨phis, run, ph⟩ := exists_placePhis nd on within
  obtain ⟨placed, run', ph'⟩ := exists_placePhis (defOrder.keys defs ▸ nd) on'
    fun v d hd => within v d ((defOrder.perm defs v).mem_iff.mp hd)
  refine ⟨phis, placed, run, run', ?_, fun k => ⟨⟨ph.nodup k, ?_⟩, fun x => ?_⟩⟩
  · rw [phiOrder.keys, ph'.keys, ph.keys]
  · rw [(phiOrder.perm placed k).nodup_iff]
    exact ph'.nodup k
  · rw [(phiOrder.perm placed k).mem_iff]
    have least := ph'.isLeast x
    have closed : frontierClosed (frontierOrder.apply fr) ((defOrder.apply defs).getD x []) =
        frontierClosed fr (defs.getD x []) := by
      simp only [frontierClosed, (defOrder.perm defs x).mem_iff, (frontierOrder.perm fr _).mem_iff]
    rw [closed] at least
    exact Set.ext_iff.mp (least.unique (ph.isLeast x)) k

lemma alike_start {versions : Table String (List String)} (same : SameSets phis phis') :
    Alike
      { blocks, versions, sources := phis.map fun vs => .ofList (vs.map fun v => (v, [])),
        results := .empty }
      { blocks, versions, sources := phis'.map fun vs => .ofList (vs.map fun v => (v, [])),
        results := .empty } where
  blocks := rfl
  versions _ := rfl
  counts _ := rfl
  operands c x := by simp only [Renaming.operands, Renaming.getD_sources]
  sources c := by
    rw [Renaming.keys_sources (same.sets c).nodup.1, Renaming.keys_sources (same.sets c).nodup.2]
    exact same.sets c
  results _ _ := rfl

end Orders

/-- The phis of a variable are placed in its iterated frontier, whatever the order of the sets, and
the conversion gives the same function for every order. -/
theorem enter_orderless :
    (∀ (blocks : NamedBlocks) (fr defs : FlowMap), defs.keys.Nodup → FrontiersOn fr blocks.keys →
      (∀ v, ∀ d ∈ defs.getD v [], d ∈ blocks.keys) →
      ∃ phis, placePhis blocks fr defs = .ok phis ∧ phis.keys = blocks.keys ∧
        ∀ v, IsLeast (frontierClosed fr (defs.getD v [])) {b | v ∈ phis.getD b []}) ∧
    ∀ (defOrder frontierOrder phiOrder : SetOrder) (f : Func),
      enterBy defOrder frontierOrder phiOrder f = enter f := by
  refine ⟨fun blocks fr defs nd on within => ?_, fun defOrder frontierOrder phiOrder f => ?_⟩
  · obtain ⟨phis, run, ph⟩ := exists_placePhis nd on within
    exact ⟨phis, run, ph.keys, ph.isLeast⟩
  · refine (Parallel.eq ?_).symm
    unfold enter enterBy
    refine Parallel.bind_same fun body hbody => Parallel.bind_same fun blocks hblocks => ?_
    refine Parallel.bind_same fun succ hsucc => Parallel.bind_same fun entry _ => ?_
    refine Parallel.bind_same fun dom hdom => Parallel.bind_same fun fr hfr => ?_
    refine Parallel.bind_same fun types _ => Parallel.bind_same fun ps _ => ?_
    refine Parallel.bind_same fun args _ => ?_
    have keys := (NamedBlocks.successors_spec hsucc).1
    have nd : succ.keys.Nodup := keys ▸ NamedBlocks.nodup_explicit hblocks
    obtain ⟨phis, placed, hphis, hplaced, same⟩ := exists_sameSets defOrder frontierOrder phiOrder
      nodup_definingBlocks (keys ▸ frontiersOn nd hdom hfr) fun _ _ => mem_keys_of_defines
    rw [hphis, hplaced, bind_ok, bind_ok]
    refine Parallel.bind_same fun tree _ => ?_
    refine (rename_alike same (alike_start same)).bind fun s t h => ?_
    rw [h.withPhis]
    exact Parallel.bind_same fun result _ => .ok rfl

/-- A block that leads to itself and has two phis. -/
def whirling : Func where
  name := some "main"
  args := some [Sample.truthParam "c"]
  instrs := some [
    .labelled "loop",
    Sample.whole "x" 1,
    Sample.whole "y" 2,
    Sample.branch "c" "loop" "exit",
    .labelled "exit"]

theorem enter_orderless_whirling :
    (∃ phis, placePhis ⟨[("a", []), ("b", [])]⟩ ⟨[("a", ["b", "b"]), ("b", ["a"])]⟩
      ⟨[("x", ["a", "a"])]⟩ = .ok phis ∧ phis.keys = ["a", "b"] ∧
      ∀ v, IsLeast (frontierClosed ⟨[("a", ["b", "b"]), ("b", ["a"])]⟩
        ((⟨[("x", ["a", "a"])]⟩ : FlowMap).getD v [])) {b | v ∈ phis.getD b []}) ∧
    (enter whirling).isOk = true ∧
    enterBy .reversed .reversed .reversed whirling = enter whirling := by
  refine ⟨enter_orderless.1 _ _ _ (by decide) ?_ fun v d hd => ?_, by cbv,
    enter_orderless.2 .reversed .reversed .reversed whirling⟩
  · exact forall_mem_cons.mpr ⟨⟨_, rfl, by decide⟩, forall_mem_singleton.mpr ⟨_, rfl, by decide⟩⟩
  · obtain rfl : v = "x" := by simpa [Table.keys] using FlowMap.mem_keys_of_edge hd
    exact (by decide : ∀ d ∈ ["a", "a"], d ∈ ["a", "b"]) d hd

end Ssa

end BrilKit
