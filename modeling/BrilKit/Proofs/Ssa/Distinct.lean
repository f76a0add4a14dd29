import BrilKit.Pass
import BrilKit.Proofs.Dominance.Tree
import BrilKit.Proofs.Ssa.Conversion
import Mathlib

/-!
# Every variable is assigned once

The walk down the dominator tree begins a new version at each assignment and for each phi, so blocks
that it has been to assign names of their own, also when it has been to one of them several times.
-/

namespace BrilKit

open List Table

namespace Ssa

open Dominators Renaming

variable {phis succ tree : FlowMap} {s s' : Renaming} {u : Visit} {n : String}
  {V W : String → Prop}

/-- The names that a block assigns: the results of its phis and of its code. -/
def Renaming.begun (phis : FlowMap) (s : Renaming) (n : String) : List String :=
  (phis.getD n []).filterMap (s.results.getD n .empty).get? ++
    (s.blocks.getD n []).filterMap Instr.dest

lemma Enters.begun_same (en : Enters phis succ s u s') : Issues s s' (s'.begun phis u.block) := by
  obtain ⟨names, iss, all⟩ := en.issues
  have results : (phis.getD u.block []).filterMap (s'.results.getD u.block .empty).get? = names :=
    (filterMap_eq_of_forall₂ all).trans filterMap_some
  have code : s'.blocks.getD u.block [] = u.renamed := by rw [en.blocks, getD_put_same]
  rwa [begun, results, code]

lemma Enters.begun_other (en : Enters phis succ s u s') (h : n ≠ u.block) :
    s'.begun phis n = s.begun phis n := by
  have results : s'.results.getD n .empty = s.results.getD n .empty := by
    rw [Table.getD, Table.getD, en.elsewhere n h]
  rw [begun, begun, results, en.blocks, getD_put_other h]

/-- Some blocks assign names of their own that have been begun. -/
structure Distinct (phis : FlowMap) (s : Renaming) (V : String → Prop) : Prop where
  issued : ∀ n, V n → ∀ x ∈ s.begun phis n, s.Issued x
  nodup : ∀ n, V n → (s.begun phis n).Nodup
  apart : ∀ n m, V n → V m → ∀ x ∈ s.begun phis n, x ∈ s.begun phis m → n = m

lemma Distinct.mono (ds : Distinct phis s V) (h : ∀ n, W n → V n) : Distinct phis s W where
  issued n hn := ds.issued n (h n hn)
  nodup n hn := ds.nodup n (h n hn)
  apart n m hn hm := ds.apart n m (h n hn) (h m hm)

/-- A visit keeps the names of blocks apart, whether or not there was one to its block before. -/
lemma Distinct.enters (ds : Distinct phis s V) (en : Enters phis succ s u s') :
    Distinct phis s' fun n => n = u.block ∨ V n := by
  have new := en.begun_same
  have old : ∀ n, n ≠ u.block → n = u.block ∨ V n → ∀ x ∈ s'.begun phis n, s.Issued x := by
    intro n hne hn x hx
    rw [en.begun_other hne] at hx
    exact ds.issued n (hn.resolve_left hne) x hx
  refine ⟨fun n hn x hx => ?_, fun n hn => ?_, fun n m hn hm x hx hx' => ?_⟩
  · by_cases hne : n = u.block
    · subst hne
      exact new.issued x hx
    · exact new.kept x (old n hne hn x hx)
  · by_cases hne : n = u.block
    · subst hne
      exact new.nodup
    · rw [en.begun_other hne]
      exact ds.nodup n (hn.resolve_left hne)
  · by_cases hne : n = u.block
    · by_cases hme : m = u.block
      · rw [hne, hme]
      · exact absurd (old m hme hm x hx') (new.fresh x (hne ▸ hx))
    · by_cases hme : m = u.block
      · exact absurd (old n hne hn x hx) (new.fresh x (hme ▸ hx'))
      · rw [en.begun_other hne] at hx
        rw [en.begun_other hme] at hx'
        exact ds.apart n m (hn.resolve_left hne) (hm.resolve_left hme) x hx hx'

lemma Walk.distinct {cs : List String} {vs : List Visit} (w : Walk phis succ tree cs s vs s')
    (ds : Distinct phis s V) : Distinct phis s' fun n => V n ∨ ∃ u ∈ vs, u.block = n := by
  induction w generalizing V with
  | nil => exact ds.mono (by simp)
  | @cons s s₁ s₂ s₃ u vs ws rest en _ _ ih ih' =>
    have below := ih (ds.enters en)
    -- The versions in force make no difference to names.
    have restored : Distinct phis { s₂ with versions := s.versions } _ :=
      ⟨below.issued, below.nodup, below.apart⟩
    refine (ih' restored).mono fun n hn => ?_
    obtain hn | ⟨v, hv, e⟩ := hn
    · exact .inl (.inl (.inr hn))
    obtain rfl | hv := mem_cons.mp hv
    · exact .inl (.inl (.inl e.symm))
    obtain hv | hv := mem_append.mp hv
    · exact .inl (.inr ⟨v, hv, e⟩)
    · exact .inr ⟨v, hv, e⟩

namespace Conversion

variable {f : Func} (c : Conversion f) {vs : List Visit} (w : c.Visits vs)
include w

lemma comes_to (free : c.EntryFree) (hn : n ∈ c.blocks.keys) : ∃ u ∈ vs, u.block = n := by
  have live : ∀ {m}, c.Live m → ∃ u ∈ vs, u.block = m := by
    intro m hm
    obtain ⟨u, hu, on⟩ := c.exists_visit free w hm
    exact ⟨u, hu, on.block⟩
  by_cases hlive : c.Live n
  · exact live hlive
  · have cp := c.computed free
    obtain ⟨a, inner⟩ := cp.exists_innermost
    obtain ⟨u, hu, rfl⟩ := live inner.reach
    have child := (cp.lost_child_iff c.nodup_succ c.tree_eq (c.succ_spec.1 ▸ hn) hlive).mpr inner
    exact w.comes.2 u hu n child

lemma dests_perm {b : Block} (hb : c.state.blocks.get? n = some b) :
    ((c.phisOf n ++ b).filterMap Instr.dest).Perm (c.state.begun c.phis n) := by
  obtain ⟨nd, mem, all⟩ := c.phisOf_spec w (mem_keys.mpr ⟨b, hb⟩)
  have results : (c.phisOf n).filterMap Instr.dest =
      (c.phiVars n).filterMap (c.state.results.getD n .empty).get? :=
    (filterMap_eq_of_forall₂ (all.imp fun _ _ isPhi => isPhi.dest.symm)).symm
  have code : c.state.blocks.getD n [] = b := by rw [Table.getD, hb, Option.getD_some]
  have vars : (c.phiVars n).Perm (c.phis.getD n []) :=
    (perm_ext_iff_of_nodup nd (c.phisFor.nodup n)).mpr mem
  rw [filterMap_append, results, begun, code]
  exact (vars.filterMap _).append_right _

lemma nodup_dests (free : c.EntryFree) : (c.result.reassemble.filterMap Instr.dest).Nodup := by
  have keys : c.state.blocks.keys = c.blocks.keys := w.blockKeys
  have nd : c.state.blocks.keys.Nodup := keys ▸ c.nodup_keys
  have ds : Distinct c.phis c.state fun n => n ∈ c.state.blocks.keys := by
    have start : Distinct c.phis c.start fun _ => False := ⟨by simp, by simp, by simp⟩
    refine (w.distinct start).mono fun n hn => .inr ?_
    exact c.comes_to w free (keys ▸ hn)
  have body : c.result.reassemble.filterMap Instr.dest =
      c.state.blocks.entries.flatMap fun e => (c.phisOf e.1 ++ e.2).filterMap Instr.dest := by
    rw [NamedBlocks.reassemble, c.result_entries.1, flatMap_map, filterMap_flatMap]
    rfl
  have perm : ∀ e ∈ c.state.blocks.entries,
      ((c.phisOf e.1 ++ e.2).filterMap Instr.dest).Perm (c.state.begun c.phis e.1) := fun e he =>
    c.dests_perm w (get?_of_mem nd he)
  rw [body, nodup_flatMap]
  constructor
  · intro e he
    rw [(perm e he).nodup_iff]
    exact ds.nodup e.1 (mem_keys_of_mem he)
  · have names : c.state.blocks.entries.Pairwise fun e e' => e.1 ≠ e'.1 := pairwise_map.mp nd
    refine names.imp_of_mem fun {e e'} he he' hne x hx hx' => hne ?_
    rw [(perm e he).mem_iff] at hx
    rw [(perm e' he').mem_iff] at hx'
    exact ds.apart _ _ (mem_keys_of_mem he) (mem_keys_of_mem he') x hx hx'

end Conversion

lemma isSingle_enter {f g : Func} (un : NamedBlocks.EntryUnnamed (f.instrs.getD []))
    (h : enter f = .ok g) : ∃ is, g.body = .ok is ∧ isSingle is = true := by
  obtain ⟨c, rfl⟩ := enter_conversion h
  obtain ⟨vs, w⟩ := c.exists_visits
  have free : c.EntryFree := c.entryFree_of_unnamed (c.body_getD ▸ un)
  exact ⟨_, rfl, decide_eq_true (c.nodup_dests w free)⟩

lemma allSingle_of_forall {fs : List Func}
    (h : ∀ f ∈ fs, ∃ is, f.body = .ok is ∧ isSingle is = true) : allSingle fs = .ok true := by
  induction fs with
  | nil => rfl
  | cons f fs ih =>
    obtain ⟨is, hbody, single⟩ := h f (by simp)
    rw [allSingle, hbody]
    exact (if_pos single).trans (ih fun f hf => h f (by simp [hf]))

/-- A program in single-assignment form assigns no variable twice in a function, if no jump or
branch uses the name that a new first block gets. -/
theorem enterSsa_allSingle {p q : Program}
    (un : ∀ f ∈ p.functions.getD [], NamedBlocks.EntryUnnamed (f.instrs.getD []))
    (h : Pass.enterSsa.run p = .ok q) : ∃ fs, q.funcs = .ok fs ∧ allSingle fs = .ok true := by
  obtain ⟨fs, hfs, h⟩ := Outcome.bind_eq_ok.mp h
  obtain ⟨gs, hgs, h⟩ := Outcome.bind_eq_ok.mp h
  obtain rfl := Outcome.pure_eq_ok.mp h
  have functions : p.functions.getD [] = fs := by
    rw [Outcome.ofOption_eq_ok.mp hfs, Option.getD_some]
  refine ⟨gs, rfl, allSingle_of_forall fun g hg => ?_⟩
  obtain ⟨f, hf, hfg⟩ := exists_of_mem_right (Outcome.mapM_eq_ok.mp hgs) hg
  exact isSingle_enter (un f (functions ▸ hf)) hfg

/-- A variable is named like a version of another one, and control cannot get to a block that stands
below two others in the dominator tree. -/
def dottedNames : Program where
  functions := some [{
    name := some "main"
    args := some [Sample.truthParam "c"]
    instrs := some [
      Sample.whole "a" 1,
      Sample.whole "a.0" 2,
      Sample.branch "c" "left" "right",
      .labelled "left",
      Sample.compute .int "id" "a.0" ["a"],
      .jump "right",
      .labelled "lost",
      Sample.whole "a" 3,
      .jump "left",
      .labelled "right",
      Sample.compute .int "id" "a" ["a.0"],
      Sample.branch "c" "right" "left"] }]

theorem enterSsa_allSingle_dottedNames : ∃ q fs, Pass.enterSsa.run dottedNames = .ok q ∧
    q.funcs = .ok fs ∧ allSingle fs = .ok true := by
  obtain ⟨q, h⟩ : ∃ q, Pass.enterSsa.run dottedNames = .ok q := Outcome.exists_of_isOk (by cbv)
  obtain ⟨fs, hfs, single⟩ := enterSsa_allSingle (by decide) h
  exact ⟨q, fs, h, hfs, single⟩

/-- No label of the body is named like the block that is put first, but a jump is to that name. -/
def reentering : Func where
  name := some "main"
  args := some [Sample.truthParam "c"]
  instrs := some [
    .labelled "a",
    Sample.whole "x" 1,
    Sample.branch "c" "b" "a",
    .labelled "b",
    Sample.whole "x" 2,
    Sample.effect "print" ["x"],
    .jump "entry1"]

/-- Where something leads to the first block, no block is below another one in the dominator tree,
and the walk ends where it starts. -/
theorem enterSsa_reentering : ∃ q fs, Pass.enterSsa.run { functions := some [reentering] } = .ok q ∧
    q.funcs = .ok fs ∧ allSingle fs = .ok false := by
  have h : (do allSingle (← (← Pass.enterSsa.run { functions := some [reentering] }).funcs)) =
      .ok false := by cbv
  obtain ⟨q, hq, h⟩ := Outcome.bind_eq_ok.mp h
  obtain ⟨fs, hfs, h⟩ := Outcome.bind_eq_ok.mp h
  exact ⟨q, fs, hq, hfs, h⟩

end Ssa

end BrilKit
