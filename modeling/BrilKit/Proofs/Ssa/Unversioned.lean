import BrilKit.Proofs.FlowGraph.Labelled
import BrilKit.Proofs.Ssa.Linking
import BrilKit.Ssa.Versions.Convert
import BrilKit.Ssa.Versions.Renumber
import Mathlib

/-!
# Forgetting versions

Numbering versions and linking uses to them, in as many visits as it takes and with the removal of
phis or without, changes nothing about a block but its phis and the versions that stand for its
variables: what is left when both are erased stays the same.
-/

namespace BrilKit

open List Outcome Table

namespace Ssa

open FlowGraph

variable {A : String → Prop} {g : FlowGraph} {pred : List Nat} {tables : List Versions}
  {force force' : Versions} {x v : String} {i i' p p' : Instr} {b b' b'' : Block} {xs : List String}

/-- A block without its phis, with variables in the place of their versions. -/
def erased (b : Block) : Block := (b.filter fun i => !i.hasOp "phi").map stemInstr

lemma erased_append : erased (b ++ b') = erased b ++ erased b' := by simp [erased]

lemma erased_phis (h : ∀ i ∈ b, i.op = some "phi") : erased b = [] := by
  rw [erased, map_eq_nil_iff, filter_eq_nil_iff]
  intro i hi
  simp [Instr.hasOp, h i hi]

lemma erased_one (h : i.op ≠ some "phi") : erased [i] = [stemInstr i] := by
  simp [erased, Instr.hasOp, h]

lemma mem_erased (hi : i ∈ b) (h : i.op ≠ some "phi") : stemInstr i ∈ erased b :=
  mem_map_of_mem (mem_filter.mpr ⟨hi, by simpa [Instr.hasOp] using h⟩)

lemma IsVersion.stem (h : IsVersion x v) : stem v = x := by
  obtain ⟨hx, n, rfl⟩ := h
  exact stem_versionOf hx

/-- A version of one of the names that get versions. -/
def VersionIn (A : String → Prop) (v : String) : Prop := ∃ x, A x ∧ IsVersion x v

/-- An instruction whose result is a version. Its operands are versions too or, outside of phis,
variables. -/
structure Spelt (A : String → Prop) (i : Instr) : Prop where
  dest : ∀ d, i.dest = some d → VersionIn A d
  uses : ∀ x ∈ i.uses, VersionIn A x ∨ i.op ≠ some "phi" ∧ '.' ∉ x.toList

section Numbering

variable {style : Style} {blocks : List Block} {order : SiteOrder}

lemma VersionsResult.stemInstr_eq (h : VersionsResult i i') (uses : ∀ x ∈ i.uses, '.' ∉ x.toList) :
    stemInstr i' = i := by
  have dest : i'.dest.map stem = i.dest := by
    obtain ⟨hd, hd'⟩ | ⟨x, n, hx, hd, hd'⟩ := h.dest
    · rw [hd, hd']
      rfl
    · rw [hd, hd', Option.map_some, stem_versionOf hx]
  have args : i.args.map (fun xs => xs.map stem) = i.args := by
    unfold Instr.uses at uses
    cases ha : i.args with
    | none => rfl
    | some xs =>
      rw [ha] at uses
      have same : xs.map stem = xs.map id := map_congr_left fun x hx => stem_of_undotted (uses x hx)
      rw [Option.map_some, same, map_id]
  rw [stemInstr, dest, h.others]
  simp only [args]

lemma erased_results (h : Forall₂ VersionsResult b b') (free : ∀ i ∈ b, i.op ≠ some "phi")
    (uses : ∀ i ∈ b, ∀ x ∈ i.uses, '.' ∉ x.toList) : erased b' = b := by
  induction h with
  | nil => rfl
  | @cons i i' b b' h _ ih =>
    have ho : i'.op ≠ some "phi" := by
      rw [h.others]
      exact free i (by simp)
    rw [← singleton_append, erased_append, erased_one ho, h.stemInstr_eq (uses i (by simp)),
      ih (fun j hj => free j (by simp [hj])) fun j hj => uses j (by simp [hj]), singleton_append]

/-- Numbering spells every result as a version. -/
lemma number_erased (plain : ∀ x, A x → '.' ∉ x.toList) (un : ∀ b ∈ g.blocks, Unnumbered b)
    (dests : ∀ n ∈ g, ∀ i ∈ n.block, ∀ d, i.dest = some d → A d)
    (uses : ∀ n ∈ g, ∀ i ∈ n.block, ∀ x ∈ i.uses, '.' ∉ x.toList)
    (h : numberBy order style g = .ok blocks) :
    blocks.map erased = g.blocks ∧ ∀ b ∈ blocks, ∀ i ∈ b, Spelt A i := by
  obtain ⟨s, hs, -⟩ := of_bind h
  have an := number_spec un (fun n hn i hi x hx => plain x (dests n hn i hi x hx)) hs h
  have len : blocks.length = g.length := by simpa [FlowGraph.blocks] using an.numbered.length
  have each : ∀ (k : Nat) n b, g[k]? = some n → blocks[k]? = some b →
      erased b = n.block ∧ ∀ i ∈ b, Spelt A i := by
    intro k n b hn hb
    have mem := mem_of_getElem? hn
    have free := (un n.block (mem_map_of_mem mem)).free
    obtain ⟨i, i', is, phis, is', e, rfl, code, hphis, -⟩ :=
      an.results (fun j hj x hx => plain x (dests n mem j hj x hx)) hn hb
    have spelt : ∀ j ∈ i' :: is', Spelt A j := by
      intro j' hj'
      obtain ⟨j, hj, v⟩ := exists_of_mem_right code hj'
      rw [← e] at hj
      refine ⟨fun d hd => ?_, fun x hx => ?_⟩
      · obtain ⟨_, none⟩ | ⟨x, m, hx, hd', hv⟩ := v.dest
        · rw [none] at hd
          cases hd
        · obtain rfl : versionOf x m = d := Option.some.inj (hv.symm.trans hd)
          exact ⟨x, dests n mem j hj x hd', hx, m, rfl⟩
      · rw [v.others] at hx ⊢
        exact .inr ⟨free j hj, uses n mem j hj x hx⟩
    refine ⟨?_, fun j hj => ?_⟩
    · have none : erased phis = [] := erased_phis fun p hp => by
        obtain ⟨x, m, t, _, rfl⟩ := hphis p hp
        rfl
      rw [← singleton_append, erased_append, erased_append, none, nil_append, ← erased_append,
        singleton_append, erased_results code (e ▸ free) (e ▸ uses n mem), e]
    · obtain rfl | hj := mem_cons.mp hj
      · exact spelt j (by simp)
      · obtain hj | hj := mem_append.mp hj
        · obtain ⟨x, m, t, hx, rfl⟩ := hphis j hj
          obtain ⟨-, -, n', hn', j, hj, hd⟩ := an.phis x k ⟨_, hb, mem_filterMap.mpr
            ⟨emptyPhi (versionOf x m) t, by simp [hj], by
              simp [emptyPhi, Instr.hasOp, variableOf_versionOf hx]⟩⟩
          refine ⟨fun d hd' => ?_, by simp [emptyPhi, Instr.uses]⟩
          cases hd'
          exact ⟨x, dests n' hn' j hj x hd, hx, m, rfl⟩
        · exact spelt j (by simp [hj])
  constructor
  · refine ext_getElem (by simp [FlowGraph.blocks, len]) fun k hk hk' => ?_
    have hk : k < blocks.length := by simpa using hk
    rw [getElem_map, (each k _ _ (getElem?_eq_getElem (len ▸ hk)) (getElem?_eq_getElem hk)).1]
    simp [FlowGraph.blocks]
  · intro b hb
    obtain ⟨k, hk⟩ := mem_iff_getElem?.mp hb
    exact (each k _ b (getElem?_eq_getElem (len ▸ lt_of_getElem? hk)) hk).2

end Numbering

/-- A table that gives each name a version of itself. -/
structure Truthful (A : String → Prop) (t : Versions) : Prop where
  nodup : t.keys.Nodup
  get : ∀ x v, t.get? x = some v → A x ∧ IsVersion x v

lemma truthful_empty : Truthful A .empty := ⟨by simp, by simp⟩

lemma truthful_inForce (ts : ∀ t ∈ tables, Truthful A t) : Truthful A (inForce tables) where
  nodup := Merge.nodup_settledBy fun t ht => (ts t ht).nodup
  get x v h := by
    obtain ⟨t, ht, hv⟩ := Merge.settledBy_sound (fun t ht => (ts t ht).nodup) h
    exact (ts t ht).get x v hv

namespace Truthful

variable (fs : Truthful A force)
include fs

lemma behind (h : ∀ d, i.dest = some d → VersionIn A d) : Truthful A (behindInstr force i) where
  nodup := nodup_behindInstr fs.nodup
  get x v hv := by
    unfold behindInstr at hv
    split at hv
    · next d hd =>
      obtain ⟨y, ay, hy⟩ := h d hd
      rw [hy.variableOf, get?_put] at hv
      split at hv
      · next e =>
        cases hv
        exact e ▸ ⟨ay, hy⟩
      · exact fs.get x v hv
    · exact fs.get x v hv

/-- What is in force in the place of a name that has a version. -/
lemma getD_cases (y : String) : force.getD y x = x ∨ A y ∧ IsVersion y (force.getD y x) := by
  unfold Table.getD
  cases hv : force.get? y with
  | none => exact .inl rfl
  | some v => exact .inr (fs.get y v hv)

/-- A version is exchanged for another one of the same variable. What has no version would be looked
up under the empty name. -/
lemma getD_variableOf (named : ¬ A "") (hx : VersionIn A x ∨ '.' ∉ x.toList) :
    force.getD (variableOf x) x = x ∨ VersionIn A (force.getD (variableOf x) x) ∧
      stem (force.getD (variableOf x) x) = stem x := by
  obtain same | ⟨ay, hv⟩ := fs.getD_cases (x := x) (variableOf x)
  · exact .inl same
  · obtain ⟨y, _, hy⟩ | hx := hx
    · rw [hy.stem, ← hy.variableOf]
      exact .inr ⟨⟨_, ay, hv⟩, hv.stem⟩
    · rw [variableOf_of_undotted hx] at ay
      exact absurd ay named

end Truthful

/-- An instruction with other operands that have the same stems. -/
lemma respelt {f : String → String} (sp : Spelt A i) (ho : i.op ≠ some "phi")
    (ha : i.args = some xs)
    (hf : ∀ x ∈ xs, f x = x ∨ VersionIn A (f x) ∧ stem (f x) = stem x) :
    erased [{ i with args := some (xs.map f) }] = erased [i] ∧
      Spelt A { i with args := some (xs.map f) } := by
  constructor
  · have same : (xs.map f).map stem = xs.map stem := by
      rw [map_map]
      refine map_congr_left fun x hx => ?_
      obtain e | ⟨_, e⟩ := hf x hx
      · exact congrArg stem e
      · exact e
    rw [erased_one ho, erased_one (by exact ho), stemInstr, stemInstr, ha, Option.map_some, same]
    rfl
  · refine ⟨sp.dest, fun y hy => ?_⟩
    obtain ⟨x, hx, rfl⟩ := mem_map.mp hy
    obtain e | ⟨hv, _⟩ := hf x hx
    · rw [e]
      exact sp.uses x (by rwa [Instr.uses, ha])
    · exact .inl hv

lemma replacement_mem {d a : String} {args : List String} (h : replacement d args = some a) :
    a ∈ args := by
  unfold replacement at h
  split at h
  · cases h
    simp
  · split at h
    · cases h
      simp
    · split at h
      · cases h
        simp
      · cases h
  · cases h

/-- What bringing an instruction up to date does to it. -/
lemma pruneInstr_cases {gone : Bool}
    (h : pruneInstr g pred tables force i = .ok (force', i', gone)) :
    force' = behindInstr force i' ∧
    (i.args = none ∧ i' = i ∧ gone = false ∨
      (∃ d xs labels labels' args, i.op = some "phi" ∧ i.dest = some d ∧ i.args = some xs ∧
        refresh g pred tables (variableOf d) (labels.length + 1) 0 (labels, xs) =
          .ok (labels', args) ∧
        (gone = false ∧ i' = { i with labels := some labels', args := some args } ∨
          gone = true ∧ ∃ a ∈ args, i'.dest = some a)) ∨
      ∃ xs, i.args = some xs ∧ i.op ≠ some "phi" ∧ gone = false ∧
        i' = { i with args := some (xs.map fun x => force.getD (variableOf x) x) }) := by
  unfold pruneInstr at h
  dsimp only at h
  split at h
  · next ha =>
    obtain ⟨_, hj, h⟩ := of_bind h
    cases hj
    split at h
    all_goals
      next hd =>
        cases h
        exact ⟨by simp_all [behindInstr], .inl ⟨ha, rfl, rfl⟩⟩
  · next xs ha =>
    obtain ⟨op, hop, h⟩ := of_bind h
    rw [Instr.getOp, ofOption_eq_ok] at hop
    split at h
    · next hphi =>
      have hop : i.op = some "phi" := by simpa [hop] using hphi
      obtain ⟨d, hd, h⟩ := of_bind h
      rw [Instr.getDest, ofOption_eq_ok] at hd
      obtain ⟨labels, -, h⟩ := of_bind h
      obtain ⟨⟨labels', args⟩, hr, h⟩ := of_bind h
      split at h
      · next a hrep =>
        obtain ⟨⟨j, out⟩, hj, h⟩ := of_bind h
        cases hj
        cases h
        exact ⟨rfl, .inr (.inl ⟨d, xs, labels, labels', args, hop, hd, ha, hr,
          .inr ⟨rfl, a, replacement_mem hrep, rfl⟩⟩)⟩
      · obtain ⟨⟨j, out⟩, hj, h⟩ := of_bind h
        cases hj
        simp only [hd] at h
        cases h
        exact ⟨by simp [behindInstr], .inr (.inl ⟨d, xs, labels, labels', args, hop, hd, ha, hr,
          .inl ⟨rfl, by rw [hd]⟩⟩)⟩
    · next hphi =>
      obtain ⟨_, hj, h⟩ := of_bind h
      cases hj
      split at h
      all_goals
        next hd =>
          cases h
          exact ⟨by simp_all [behindInstr],
            .inr (.inr ⟨xs, ha, by simpa [hop] using hphi, rfl, rfl⟩)⟩

section Link

variable (ts : ∀ t ∈ tables, Truthful A t)
include ts

lemma collect_spelt {edge : Nat × Nat} (hp : p.op = some "phi" ∧ Spelt A p)
    (h : collect g tables x p edge = .ok p') : p'.op = some "phi" ∧ Spelt A p' := by
  obtain ⟨n, -, h⟩ := of_bind h
  split at h
  · cases h
  obtain ⟨ls, -, h⟩ := of_bind h
  split at h
  · cases h
    exact hp
  obtain ⟨t, ht, h⟩ := of_bind h
  rw [itemAt_eq_ok] at ht
  split at h
  · cases h
    exact hp
  · next v hv =>
    cases h
    refine ⟨hp.1, hp.2.dest, fun w hw => ?_⟩
    simp only [Instr.uses, Option.getD_some, mem_append, mem_singleton] at hw
    obtain hw | rfl := hw
    · exact hp.2.uses w hw
    · exact .inl ⟨x, (ts t (mem_of_getElem? ht)).get x w hv⟩

lemma refresh_versions {fuel k : Nat} {labels labels' args args' : List String}
    (hargs : ∀ v ∈ args, VersionIn A v)
    (h : refresh g pred tables x fuel k (labels, args) = .ok (labels', args')) :
    ∀ v ∈ args', VersionIn A v := by
  induction fuel generalizing k labels args with
  | zero =>
    cases h
    exact hargs
  | succ fuel ih =>
    unfold refresh at h
    split at h
    · cases h
      exact hargs
    obtain ⟨t, ht, h⟩ := of_bind h
    rw [itemAt_eq_ok] at ht
    split at h
    · obtain ⟨_, -, h⟩ := of_bind h
      exact ih (fun v hv => hargs v (mem_of_mem_eraseIdx hv)) h
    · next w hw =>
      obtain ⟨_, -, h⟩ := of_bind h
      refine ih (fun v hv => ?_) h
      obtain hv | rfl := mem_or_eq_of_mem_set hv
      · exact hargs v hv
      · exact ⟨x, (ts t (mem_of_getElem? ht)).get x v hw⟩

lemma linkInstr_spelt (fs : Truthful A force) (sp : Spelt A i)
    (h : linkInstr g pred tables force i = .ok (force', i')) :
    erased [i'] = erased [i] ∧ Spelt A i' := by
  obtain ⟨-, ⟨-, rfl⟩ | ⟨d, ho, -, h⟩ | ⟨xs, ha, ho, rfl⟩⟩ := linkInstr_cases h
  · exact ⟨rfl, sp⟩
  · obtain ⟨ho', sp'⟩ := foldlM_invariant (fun j => j.op = some "phi" ∧ Spelt A j)
      (fun _ _ _ _ hs h => collect_spelt ts hs h) h ⟨ho, sp⟩
    exact ⟨by rw [erased_phis (by simpa using ho'), erased_phis (by simpa using ho)], sp'⟩
  · refine respelt sp ho ha fun x _ => ?_
    obtain same | ⟨ax, hv⟩ := fs.getD_cases (x := x) x
    · exact .inl same
    · exact .inr ⟨⟨x, ax, hv⟩, by rw [hv.stem, stem_of_undotted hv.1]⟩

/-- What becomes of an instruction when the phis that merge nothing are removed. -/
lemma pruneInstr_spelt {gone : Bool} (named : ¬ A "") (fs : Truthful A force) (sp : Spelt A i)
    (h : pruneInstr g pred tables force i = .ok (force', i', gone)) :
    (∀ d, i'.dest = some d → VersionIn A d) ∧
      (gone = true ∧ erased [i] = [] ∨ gone = false ∧ erased [i'] = erased [i] ∧ Spelt A i') := by
  obtain ⟨-, ⟨-, rfl, rfl⟩ | ⟨d, xs, ls, ls', args, ho, -, ha, hr, hcase⟩ |
    ⟨xs, ha, ho, rfl, rfl⟩⟩ := pruneInstr_cases h
  · exact ⟨sp.dest, .inr ⟨rfl, rfl, sp⟩⟩
  · have none : erased [i] = [] := erased_phis (by simpa using ho)
    have versions := refresh_versions ts (fun v hv => by
      have spelt := sp.uses v (by rwa [Instr.uses, ha])
      exact spelt.resolve_right fun no => no.1 ho) hr
    obtain ⟨rfl, rfl⟩ | ⟨rfl, a, hmem, hdest⟩ := hcase
    · refine ⟨sp.dest, .inr ⟨rfl, ?_, sp.dest, fun v hv => .inl (versions v hv)⟩⟩
      rw [none, erased_phis (by simpa using ho)]
    · refine ⟨fun e he => ?_, .inl ⟨rfl, none⟩⟩
      obtain rfl := Option.some.inj (hdest.symm.trans he)
      exact versions a hmem
  · obtain ⟨same, sp'⟩ := respelt sp ho ha fun x hx => fs.getD_variableOf named
      ((sp.uses x (by rwa [Instr.uses, ha])).imp_right And.right)
    exact ⟨sp'.dest, .inr ⟨rfl, same, sp'⟩⟩

/-- Linking a block changes nothing that is left when phis and versions are erased, and the versions
in force behind the block are versions of their names. -/
lemma linkBlock_erased {pruning : Bool} (named : pruning = true → ¬ A "") (fs : Truthful A force)
    (sp : ∀ i ∈ b, Spelt A i) (h : linkBlock g pred tables pruning force b = .ok (force', b')) :
    erased b' = erased b ∧ (∀ i ∈ b', Spelt A i) ∧ Truthful A force' := by
  induction b generalizing force b' with
  | nil =>
    cases h
    exact ⟨rfl, sp, fs⟩
  | cons i b ih =>
    obtain ⟨spi, sp⟩ := forall_mem_cons.mp sp
    -- The instruction leaves one instruction behind or, if it is a phi, none.
    obtain ⟨i', kept, c, rfl, here, spk, versions, h⟩ : ∃ i' kept c, b' = kept ++ c ∧
        erased kept = erased [i] ∧ (∀ j ∈ kept, Spelt A j) ∧
        (∀ d, i'.dest = some d → VersionIn A d) ∧
        linkBlock g pred tables pruning (behindInstr force i') b = .ok (force', c) := by
      cases pruning with
      | false =>
        obtain ⟨i', c, rfl, hi, h⟩ := linkBlock_cons h
        obtain ⟨same, sp'⟩ := linkInstr_spelt ts fs spi hi
        exact ⟨i', [i'], c, rfl, same, by simpa using sp', sp'.dest, h⟩
      | true =>
        unfold linkBlock at h
        rw [if_pos rfl] at h
        obtain ⟨⟨mid, i', gone⟩, hi, h⟩ := of_bind h
        obtain ⟨⟨last, c⟩, hb, h⟩ := of_bind h
        cases h
        obtain ⟨rfl, -⟩ := pruneInstr_cases hi
        obtain ⟨versions, ⟨rfl, none⟩ | ⟨rfl, same, sp'⟩⟩ :=
          pruneInstr_spelt ts (named rfl) fs spi hi
        · exact ⟨i', [], c, rfl, none.symm, by simp, versions, hb⟩
        · exact ⟨i', [i'], c, rfl, same, by simpa using sp', versions, hb⟩
    obtain ⟨rest, sp', fs'⟩ := ih (fs.behind versions) sp h
    rw [erased_append, here, rest, ← erased_append, singleton_append]
    exact ⟨rfl, forall_mem_append.mpr ⟨spk, sp'⟩, fs'⟩

end Link

namespace Linking

variable {bs : List Block} {s s' : Linking} {k target : Nat}

/-- Blocks with versions for their variables, and tables of such versions for their edges. -/
structure Faithful (A : String → Prop) (bs : List Block) (s : Linking) : Prop where
  blocks : s.blocks.map erased = bs
  spelt : ∀ b ∈ s.blocks, ∀ i ∈ b, Spelt A i
  tables : ∀ ts ∈ s.ins, ∀ t ∈ ts, Truthful A t

lemma Faithful.pass (ft : Faithful A bs s) (fs : Truthful A force)
    (h : passVersions g k force s target = .ok s') :
    Faithful A bs s' ∧ s'.pruning = s.pruning := by
  obtain ⟨node, -, h⟩ := of_bind h
  obtain ⟨ts, hts, h⟩ := of_bind h
  rw [itemAt_eq_ok] at hts
  obtain ⟨slot, -, h⟩ := of_bind h
  obtain ⟨old, -, h⟩ := of_bind h
  have filled : ∀ t ∈ (if ts.isEmpty then node.pred.map fun _ => .empty else ts), Truthful A t := by
    split
    · intro t ht
      obtain ⟨_, _, rfl⟩ := mem_map.mp ht
      exact truthful_empty
    · exact ft.tables ts (mem_of_getElem? hts)
  have put : ∀ us, (∀ t ∈ us, Truthful A t) →
      ∀ ts ∈ s.ins.set target us, ∀ t ∈ ts, Truthful A t := by
    intro us hus ts hts
    obtain hts | rfl := mem_or_eq_of_mem_set hts
    · exact ft.tables ts hts
    · exact hus
  split at h
  · cases h
    exact ⟨{ ft with tables := put _ filled }, rfl⟩
  · cases h
    refine ⟨{ ft with tables := put _ fun t ht => ?_ }, rfl⟩
    obtain ht | rfl := mem_or_eq_of_mem_set ht
    · exact filled t ht
    · exact fs

/-- A visit exchanges spellings in one block and passes sound tables on. -/
lemma Faithful.visit (ft : Faithful A bs s) (named : s.pruning = true → ¬ A "")
    (h : visitBlock g s = .ok s') : Faithful A bs s' ∧ s'.pruning = s.pruning := by
  unfold visitBlock at h
  split at h
  · cases h
    exact ⟨ft, rfl⟩
  · next k rest _ =>
    obtain ⟨node, -, h⟩ := of_bind h
    obtain ⟨ts, hts, h⟩ := of_bind h
    rw [itemAt_eq_ok] at hts
    obtain ⟨b, hb, h⟩ := of_bind h
    rw [itemAt_eq_ok] at hb
    obtain ⟨⟨force, b'⟩, hlink, h⟩ := of_bind h
    have hts' := ft.tables ts (mem_of_getElem? hts)
    obtain ⟨same, sp, fs⟩ := linkBlock_erased hts' named (truthful_inForce hts')
      (ft.spelt b (mem_of_getElem? hb)) hlink
    refine foldlM_invariant (fun u => Faithful A bs u ∧ u.pruning = s.pruning)
      (fun t _ u v hu h => ?_) h ⟨⟨?_, fun c hc => ?_, ft.tables⟩, rfl⟩
    · obtain ⟨ft', e⟩ := hu.1.pass fs h
      exact ⟨ft', e.trans hu.2⟩
    · rw [← ft.blocks, map_set, same]
      obtain ⟨hk, rfl⟩ := List.getElem?_eq_some_iff.mp hb
      rw [← getElem_map erased (h := by simpa using hk), set_getElem_self]
    · obtain hc | rfl := mem_or_eq_of_mem_set hc
      · exact ft.spelt c hc
      · exact sp

lemma Faithful.settle (ft : Faithful A bs s) (named : s.pruning = true → ¬ A "")
    (h : settleLinks g s = .ok s') : Faithful A bs s' := by
  refine (Iterate.run_invariant (fun u => Faithful A bs u ∧ u.pruning = s.pruning)
    (fun u v hu _ h => ?_) h ⟨ft, rfl⟩).1.1
  obtain ⟨ft', e⟩ := hu.1.visit (fun hp => named (hu.2 ▸ hp)) h
  exact ⟨ft', e.trans hu.2⟩

end Linking

lemma link_erased {style : Style} {blocks blocks' : List Block}
    (named : style.prunes = true → ¬ A "") (sp : ∀ b ∈ blocks, ∀ i ∈ b, Spelt A i)
    (h : link style g blocks = .ok blocks') : blocks'.map erased = blocks.map erased := by
  obtain ⟨s, hs, h⟩ := of_bind h
  have start : Linking.Faithful A (blocks.map erased) (.initial blocks) := by
    refine ⟨rfl, sp, fun ts hts t ht => ?_⟩
    obtain hts | rfl := mem_or_eq_of_mem_set hts
    · obtain ⟨_, _, rfl⟩ := mem_map.mp hts
      simp at ht
    · obtain rfl := mem_singleton.mp ht
      exact truthful_empty
  have ft := start.settle (by simp [Linking.initial]) hs
  split at h
  · next hprunes =>
    obtain ⟨s', hs', h⟩ := of_bind h
    cases h
    have ft' : Linking.Faithful A (blocks.map erased) s.beginPruning :=
      ⟨ft.blocks, ft.spelt, ft.tables⟩
    exact (ft'.settle (fun _ => named hprunes) hs').blocks
  · obtain ⟨s', hs', h⟩ := of_bind h
    cases hs'
    cases h
    exact ft.blocks

end Ssa

section Relabelled

variable {f : Func} {ps : List Param} {body : List Instr} {i : Instr}

def Func.hasParamField (f : Func) : Bool := f.args.isSome || (f.extra.lookup "args").isSome

/-- The function with the labels that a conversion puts in front of its body, and without the
operations between a terminator and the next label. -/
def Func.relabelled (f : Func) : Func :=
  { f with instrs := f.instrs.map fun is =>
      (if f.hasParamField then [.labelled "dummy_entry"] else []) ++
        (if is.head?.any Instr.isOp then [.labelled "entry"] else []) ++ trimmed false is }

lemma Func.relabelled_eq {first : Instr} {is : List Instr} (h : f.instrs = some (first :: is)) :
    f.relabelled = f.withBody ((if f.hasParamField then [.labelled "dummy_entry"] else []) ++
      ((if first.isOp then [.labelled "entry"] else []) ++ trimmed false (first :: is))) := by
  rw [relabelled, h, ← append_assoc]
  rfl

lemma Func.paramList?_eq_none (h : f.paramList? = .ok none) :
    f.hasParamField = false ∧ f.args = none := by
  unfold paramList? at h
  unfold hasParamField
  split at h
  · cases h
  · next hargs hextra => simp [hargs, hextra]
  · cases h
  · cases h
  · cases h

lemma Func.paramList?_eq_some (h : f.paramList? = .ok (some ps)) :
    f.hasParamField = true ∧ f.params = ps := by
  unfold paramList? at h
  unfold hasParamField params
  split at h <;> simp_all

end Relabelled

namespace Ssa

open FlowGraph

variable {f f' : Func} {g : FlowGraph} {ps ps' : List Param} {bs blocks : List Block} {b b' : Block}
  {copies is : List Instr} {versions : Versions}

lemma erased_flatten : erased bs.flatten = (bs.map erased).flatten := by
  simp only [erased, filter_flatten, map_flatten, map_map]
  rfl

section Copies

variable (hcopies : ps.mapM Func.selfCopy = .ok copies)
  (he : erased b' = .labelled "dummy_entry" :: copies.reverse)

include hcopies he in
lemma label_of_copies :
    (b'.filter fun i => !i.isOp && i.setsLabel) = [.labelled "dummy_entry"] := by
  -- A label is no phi, and a label in another spelling is a label.
  have same : (b'.filter fun i => !i.isOp && i.setsLabel).map stemInstr =
      (erased b').filter fun i => !i.isOp && i.setsLabel := by
    rw [erased, filter_map, filter_filter]
    congr 1
    refine filter_congr fun i _ => ?_
    cases ho : i.op <;> simp [stemInstr, Instr.isOp, Instr.setsLabel, Instr.hasOp, ho]
  have ops : (copies.reverse.filter fun i => !i.isOp && i.setsLabel) = [] := by
    refine filter_eq_nil_iff.mpr fun i hi => ?_
    obtain ⟨_, _, x, t, _, rfl⟩ := mem_copies hcopies (mem_reverse.mp hi)
    simp [Instr.isOp]
  rw [he, filter_cons_of_pos rfl, ops] at same
  obtain ⟨i, hi, e⟩ := map_eq_singleton_iff.mp same
  rw [hi, ← e]
  obtain ⟨hd, ha⟩ : i.dest = none ∧ i.args = none := by
    simpa [stemInstr, Instr.labelled] using
      And.intro (congrArg Instr.dest e) (congrArg Instr.args e)
  rw [stemInstr, hd, ha, Option.map_none, Option.map_none, ← hd, ← ha]

include hcopies he in
/-- The first versions of the parameters have the parameters as their stems. -/
lemma stem_paramVersions (h : paramVersions b' = .ok versions) :
    ∀ x v, '.' ∉ x.toList → versions.get? x = some v → stem v = x := by
  refine foldlM_invariant
    (fun t : Versions => ∀ x v, '.' ∉ x.toList → t.get? x = some v → stem v = x)
    (fun i' hi' t u ht h => ?_) h (by simp)
  split at h
  · cases h
    exact ht
  · next op hop =>
    obtain ⟨_, hid, h⟩ := of_bind h
    obtain ⟨xs, hxs, h⟩ := of_bind h
    obtain ⟨z, hz, h⟩ := of_bind h
    obtain ⟨d, hd, h⟩ := of_bind h
    rw [Instr.getArgs, ofOption_eq_ok] at hxs
    rw [Instr.getDest, ofOption_eq_ok] at hd
    cases h
    -- A phi is no copy, so the item is a parameter's copy in another spelling.
    obtain ⟨y, hyz, hyd⟩ : ∃ y, stem z = y ∧ stem d = y := by
      have hi : stemInstr i' ∈ erased b' := mem_erased hi' fun hphi => by
        cases hop.symm.trans hphi
        cases hid
      rw [he] at hi
      obtain e | hi := mem_cons.mp hi
      · have ho : i'.op = none := congrArg Instr.op e
        cases hop.symm.trans ho
      · obtain ⟨_, _, y, t, _, e⟩ := mem_copies hcopies (mem_reverse.mp hi)
        have hargs : xs.map stem = [y] := by
          simpa [stemInstr, hxs] using congrArg Instr.args e
        have hdest : stem d = y := by simpa [stemInstr, hd] using congrArg Instr.dest e
        obtain ⟨w, rfl, hw⟩ := map_eq_singleton_iff.mp hargs
        cases hz
        exact ⟨y, hw, hdest⟩
    intro x v hx hv
    rw [get?_put] at hv
    split at hv
    · next e =>
      cases hv
      subst e
      rw [hyd, ← hyz, stem_of_undotted hx]
    · exact ht x v hx hv

end Copies

lemma stemParam_of_renameParam {p p' : Param} (plain : ∀ x, p.name = some x → '.' ∉ x.toList)
    (vs : ∀ x v, '.' ∉ x.toList → versions.get? x = some v → stem v = x)
    (h : renameParam versions p = .ok p') : stemParam p' = .ok p := by
  obtain ⟨x, hx, h⟩ := of_bind h
  obtain ⟨v, hv, h⟩ := of_bind h
  rw [Param.getName, ofOption_eq_ok] at hx
  rw [fetch_eq_ok] at hv
  cases h
  have e := vs x v (plain x hx) hv
  cases p
  cases hx
  simp [stemParam, Param.getName, Outcome.ofOption, e]

lemma finish_of_paramList?_none (hargs : f.paramList? = .ok none)
    (h : finish f g blocks = .ok f') : f' = f.withBody blocks.flatten := by
  obtain ⟨isCopy, -, h⟩ := of_bind h
  cases isCopy with
  | false =>
    cases h
    rfl
  | true =>
    obtain ⟨_, -, h⟩ := of_bind h
    obtain ⟨_, -, h⟩ := of_bind h
    obtain ⟨o, ho, h⟩ := of_bind h
    cases hargs.symm.trans ho
    obtain ⟨_, hps, _⟩ := of_bind h
    cases hps

/-- A function with a field for parameters gets other names for them, with the same stems, and its
block of copies is emptied. -/
lemma finish_of_paramList?_some (hargs : f.paramList? = .ok (some ps))
    (hcopies : ps.mapM Func.selfCopy = .ok copies)
    (plain : ∀ p ∈ ps, ∀ x, p.name = some x → '.' ∉ x.toList)
    (hg : g.blocks = (.labelled "dummy_entry" :: copies.reverse) :: bs)
    (he : erased b' = .labelled "dummy_entry" :: copies.reverse)
    (h : finish f g (b' :: blocks) = .ok f') : ∃ ps', ps'.mapM stemParam = .ok ps ∧
      f' = { f with args := f.args.map fun _ => ps',
                    instrs := some (.labelled "dummy_entry" :: blocks.flatten) } := by
  have hcopy : isCopyBlock g = .ok true := by
    have hl : g.head?.bind Node.label = some "dummy_entry" := by
      cases g with
      | nil => simp [FlowGraph.blocks] at hg
      | cons n g =>
        have hn : n.block = .labelled "dummy_entry" :: copies.reverse := by
          simpa using (List.cons.inj hg).1
        simp [Node.label, hn, Instr.labelled]
    have split : "dummy_entry".splitOn "dummy_entry" = ["", ""] := by cbv
    simp [isCopyBlock, hl, split]
  obtain ⟨isCopy, hcopy', h⟩ := of_bind h
  cases hcopy.symm.trans hcopy'
  obtain ⟨b, hb, h⟩ := of_bind h
  cases hb
  obtain ⟨versions, hversions, h⟩ := of_bind h
  obtain ⟨o, ho, h⟩ := of_bind h
  cases hargs.symm.trans ho
  obtain ⟨qs, hqs, h⟩ := of_bind h
  cases hqs
  obtain ⟨ps', hps', h⟩ := of_bind h
  rw [label_of_copies hcopies he] at h
  cases h
  refine ⟨ps', mapM_eq_ok.mpr ?_, by simp⟩
  have vs := stem_paramVersions hcopies he hversions
  have renamed := (forall₂_and_left _ _).mpr ⟨plain, mapM_eq_ok.mp hps'⟩
  exact (renamed.imp fun _ _ h => stemParam_of_renameParam h.1 vs h.2).flip

lemma dropVersions_eq (args' : Option (List Param)) {is is' : List Instr}
    (hlist : ∃ o, ({ f with args := args' } : Func).paramList? = .ok o)
    (hargs : args'.mapM (fun ps => ps.mapM stemParam) = .ok f.args)
    (stems : erased is = is') :
    dropVersions { f with args := args', instrs := some is } = .ok (f.withBody is') := by
  obtain ⟨o, ho⟩ := hlist
  refine ok_bind ho (ok_bind hargs ?_)
  refine ok_bind rfl ?_
  rw [← stems]
  rfl

/-- Versions introduced and then forgotten leave labels in front of a function and take the
operations between a terminator and the next label away, and change nothing else: the conversion
exchanges spellings of a variable only, whichever way it merges and removes phis. -/
theorem dropVersions_convert {style : Style} (hs : style = .direct ∨ style = .iterative)
    (phiFree : ∀ i ∈ f.instrs.getD [], i.op ≠ some "phi")
    (plain : ∀ x ∈ assignedNames f, '.' ∉ x.toList)
    (uses : ∀ i ∈ f.instrs.getD [], ∀ x ∈ i.uses, '.' ∉ x.toList)
    (named : style = .direct → "" ∉ assignedNames f) {order : SiteOrder}
    (h : convertBy order style f = .ok f') : dropVersions f' = .ok f.relabelled := by
  obtain ⟨g, hg, h⟩ := Outcome.bind_eq_ok.mp h
  obtain ⟨numbered, hnumbered, h⟩ := Outcome.bind_eq_ok.mp h
  obtain ⟨blocks, hblocks, h⟩ := Outcome.bind_eq_ok.mp h
  obtain ⟨body, hbody, hg⟩ := Outcome.bind_eq_ok.mp hg
  have dropsDead : style.graph.dropsDead = true := by obtain rfl | rfl := hs <;> rfl
  have items : ∀ i ∈ g.blocks.flatten, (∃ l, i = .labelled l) ∨ (∃ x ∈ assignedNames f, ∃ t,
      i = { op := some "id", args := some [x], dest := some x, type := some t }) ∨
      i ∈ f.instrs.getD [] := by
    intro i hi
    rw [blocks_ofBody dropsDead hg, Block.flatten_split] at hi
    refine (labelledBody_items hbody (mem_of_mem_trimmed hi)).imp_right (.imp_left ?_)
    rintro ⟨p, hp, x, t, hx, rfl⟩
    exact ⟨x, List.mem_append_left _ (List.mem_filterMap.mpr ⟨p, hp, hx⟩), t, rfl⟩
  have dests : ∀ i ∈ g.blocks.flatten, ∀ d, i.dest = some d → d ∈ assignedNames f := by
    intro i hi d hd
    obtain ⟨l, rfl⟩ | ⟨x, hx, t, rfl⟩ | hi := items i hi
    · cases hd
    · cases hd
      exact hx
    · exact List.mem_append_right _ (List.mem_filterMap.mpr ⟨i, hi, hd⟩)
  have uses' : ∀ i ∈ g.blocks.flatten, ∀ x ∈ i.uses, '.' ∉ x.toList := by
    intro i hi x hx
    obtain ⟨l, rfl⟩ | ⟨y, hy, t, rfl⟩ | hi := items i hi
    · simp [Instr.labelled, Instr.uses] at hx
    · obtain rfl : x = y := by simpa [Instr.uses] using hx
      exact plain x hy
    · exact uses i hi x hx
  have free : ∀ i ∈ g.blocks.flatten, i.op ≠ some "phi" := by
    intro i hi
    obtain ⟨l, rfl⟩ | ⟨y, hy, t, rfl⟩ | hi := items i hi
    · simp [Instr.labelled]
    · simp
    · exact phiFree i hi
  have flat : ∀ n ∈ g, ∀ i ∈ n.block, i ∈ g.blocks.flatten := fun n hn i hi =>
    List.mem_flatten.mpr ⟨n.block, List.mem_map_of_mem hn, hi⟩
  have un : ∀ b ∈ g.blocks, Unnumbered b := fun b hb =>
    ⟨(Block.wellCut_of_mem_split (blocks_ofBody dropsDead hg ▸ hb)).nonempty,
      fun i hi => free i (List.mem_flatten.mpr ⟨b, hb, hi⟩)⟩
  have same : blocks.map erased = g.blocks := by
    obtain ⟨same, sp⟩ := number_erased plain un (fun n hn i hi => dests i (flat n hn i hi))
      (fun n hn i hi => uses' i (flat n hn i hi)) hnumbered
    refine (link_erased (fun hp => ?_) sp hblocks).trans same
    obtain rfl | rfl := hs
    · exact named rfl
    · cases hp
  obtain ⟨first, is, his, hfront⟩ := labelledBody_cases hbody
  obtain ⟨hargs, rfl⟩ | ⟨ps, copies, -, hargs, hcopies, rfl⟩ := hfront
  · have hargs := hargs rfl
    obtain ⟨hfield, hnone⟩ := Func.paramList?_eq_none hargs
    obtain rfl := finish_of_paramList?_none hargs h
    have stems : erased blocks.flatten = _ := erased_flatten.trans (congrArg List.flatten same)
    rw [blocks_ofBody dropsDead hg, Block.flatten_split, trimmed_withLabel] at stems
    rw [Func.relabelled_eq his, hfield]
    refine dropVersions_eq f.args ⟨none, hargs⟩ ?_ stems
    rw [hnone]
    rfl
  · obtain ⟨hfield, hparams⟩ := Func.paramList?_eq_some hargs
    have hcut := blocks_ofBody dropsDead hg
    rw [split_trimmed_copies hcopies] at hcut
    rw [hcut] at same
    obtain ⟨b', blocks, rfl, he, same⟩ := List.map_eq_cons_iff.mp same
    obtain ⟨ps', hps', rfl⟩ := finish_of_paramList?_some hargs hcopies (fun p hp x hx =>
      plain x (List.mem_append_left _ (by
        rw [hparams]
        exact List.mem_filterMap.mpr ⟨p, hp, hx⟩))) hcut he h
    have stems : erased blocks.flatten = _ := erased_flatten.trans (congrArg List.flatten same)
    rw [Block.flatten_split, trimmed_withLabel] at stems
    rw [Func.relabelled_eq his, hfield]
    refine dropVersions_eq _ ?_ ?_ (congrArg (_ :: ·) stems)
    · cases hsome : f.args with
      | none => exact ⟨some ps, by simpa [Func.paramList?, hsome] using hargs⟩
      | some qs => exact ⟨some ps', rfl⟩
    · cases hsome : f.args with
      | none => rfl
      | some qs =>
        obtain rfl : qs = ps := by simpa [Func.params, hsome] using hparams
        exact Outcome.bind_eq_ok.mpr ⟨qs, hps', rfl⟩

theorem dropVersions_convert_countdown : ∃ g, convert .direct .countdown = .ok g ∧
    dropVersions g = .ok Func.countdown.relabelled ∧ Func.countdown.relabelled.instrs = some [
      .labelled "dummy_entry", .labelled "loop",
      Sample.branch "n" "body" "done", .labelled "body",
      Sample.compute .int "pred" "n" ["n"],
      .jump "loop", .labelled "done", Sample.effect "print" ["n"]] := by
  obtain ⟨g, h⟩ : ∃ g, convert .direct .countdown = .ok g := exists_of_isOk (by cbv)
  refine ⟨g, h, dropVersions_convert (.inl rfl) ?_ ?_ ?_ ?_ h, by decide⟩
  · simp [Func.countdown, Instr.labelled, Instr.jump]
  · simp [Func.countdown, assignedNames, Func.params, Instr.labelled, Instr.jump]
  · simp [Func.countdown, Instr.uses, Instr.labelled, Instr.jump]
  · simp [Func.countdown, assignedNames, Func.params, Instr.labelled, Instr.jump]

/-- Assigns a variable without a name and prints one that has not been assigned. -/
def nameless : Func where
  name := some "main"
  args := some []
  instrs := some [
    Sample.whole "" 1,
    Sample.effect "print" ["x"]]

/-- The removal of phis takes a name without versions for a version of the variable without a name,
and the use of another variable becomes a use of that one. -/
theorem dropVersions_nameless : ∃ g, convert .direct nameless = .ok g ∧
    dropVersions g = .ok (nameless.withBody [.labelled "dummy_entry", .labelled "entry",
      Sample.whole "" 1,
      Sample.effect "print" [""]]) ∧
    dropVersions g ≠ .ok nameless.relabelled := by
  have h : convert .direct nameless = .ok (nameless.withBody [
      .labelled "dummy_entry", .labelled "entry",
      Sample.whole ".1" 1,
      Sample.effect "print" [".1"]]) := by
    cbv
  refine ⟨_, h, ?_, ?_⟩
  · cbv
  · decide

end Ssa

end BrilKit
