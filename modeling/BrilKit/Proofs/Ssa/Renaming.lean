import BrilKit.Proofs.Data.Table
import BrilKit.Proofs.Ssa.Naming
import BrilKit.Proofs.Ssa.VersionNames
import BrilKit.Ssa.Enter

/-!
# Renaming one block

What a visit of the walk down the dominator tree does with its block: phis and assignments get new
versions, operands are replaced by the versions in force, and the versions in force at the end are
handed to the phis of the successors.
-/

namespace BrilKit

open List Outcome Table

namespace Ssa

variable {σ : Scheme} {s s' : Renaming} {x y v n : String}

def inForceBy (versions : Table String (List String)) : Naming :=
  fun x n => (versions.getD x []).head? = some n

namespace Renaming

lemma push_fst : (s.push v).1 = versionOf v (s.counts.getD v 0) := rfl

lemma push_versions_same :
    (s.push v).2.versions.getD v [] = (s.push v).1 :: s.versions.getD v [] := by
  simp [push, Table.alter, Table.getD]

lemma push_versions_other (h : x ≠ v) : (s.push v).2.versions.getD x [] = s.versions.getD x [] := by
  simp [push, Table.alter, getD_put_other h]

@[simp] lemma push_blocks : (s.push v).2.blocks = s.blocks := rfl

@[simp] lemma push_sources : (s.push v).2.sources = s.sources := rfl

@[simp] lemma push_results : (s.push v).2.results = s.results := rfl

lemma inForceBy_push : inForceBy (s.push v).2.versions = (inForceBy s.versions).set v (s.push v).1 := by
  funext x n
  by_cases h : x = v
  · subst h
    simp [inForceBy, push_versions_same, eq_comm]
  · simp [inForceBy, push_versions_other h, Naming.set, h]

lemma current_eq_ok : s.current x = .ok n ↔ inForceBy s.versions x n := by
  rw [current, itemAt_eq_ok, inForceBy, head?_eq_getElem?]

def Issued (s : Renaming) (n : String) : Prop := ∃ v k, n = versionOf v k ∧ k < s.counts.getD v 0

/-- Names that are begun on the way from one state to another: each is new, and none comes twice. -/
structure Issues (s s' : Renaming) (names : List String) : Prop where
  nodup : names.Nodup
  issued : ∀ n ∈ names, s'.Issued n
  fresh : ∀ n ∈ names, ¬ s.Issued n
  kept : ∀ n, s.Issued n → s'.Issued n

lemma Issues.of_counts (h : s'.counts = s.counts) : Issues s s' [] where
  nodup := nodup_nil
  issued := by simp
  fresh := by simp
  kept n hn := by rwa [Issued, h]

lemma Issues.trans {s'' : Renaming} {ns ms : List String} (h : Issues s s' ns)
    (h' : Issues s' s'' ms) : Issues s s'' (ns ++ ms) where
  nodup := by
    refine nodup_append.mpr ⟨h.nodup, h'.nodup, ?_⟩
    rintro n hn m hm rfl
    exact h'.fresh n hm (h.issued n hn)
  issued n hn := by
    obtain hn | hn := mem_append.mp hn
    · exact h'.kept n (h.issued n hn)
    · exact h'.issued n hn
  fresh n hn old := by
    obtain hn | hn := mem_append.mp hn
    · exact h.fresh n hn old
    · exact h'.fresh n hn (h.kept n old)
  kept n hn := h'.kept n (h.kept n hn)

lemma push_issues (h : s'.counts = (s.push v).2.counts) : Issues s s' [(s.push v).1] := by
  have count : s'.counts.getD v 0 = s.counts.getD v 0 + 1 := by
    rw [h]
    exact getD_put_same
  refine ⟨nodup_singleton _, fun n hn => ?_, fun n hn => ?_, ?_⟩
  · obtain rfl := mem_singleton.mp hn
    exact ⟨v, s.counts.getD v 0, rfl, by omega⟩
  · obtain rfl := mem_singleton.mp hn
    rintro ⟨w, k, e, lt⟩
    obtain ⟨rfl, rfl⟩ := versionOf_inj e
    omega
  · rintro n ⟨w, k, rfl, lt⟩
    refine ⟨w, k, rfl, ?_⟩
    by_cases hw : w = v
    · subst hw
      omega
    · have other : s'.counts.getD w 0 = s.counts.getD w 0 := by
        rw [h]
        exact getD_put_other hw
      omega

/-- What renaming instructions leave as it is. -/
structure SameBlocks (s s' : Renaming) : Prop where
  blocks : s'.blocks = s.blocks
  sources : s'.sources = s.sources
  results : s'.results = s.results

lemma SameBlocks.trans {s'' : Renaming} (h : SameBlocks s s') (h' : SameBlocks s' s'') :
    SameBlocks s s'' :=
  ⟨h'.blocks.trans h.blocks, h'.sources.trans h.sources, h'.results.trans h.results⟩

section Instr

variable {i i' : Instr} {is is' : Block} {A : String → Prop}
  (ver : ∀ x k, A x → σ.Version x (versionOf x k))

lemma instr_cases (h : s.instr i = .ok (i', s')) :
    ∃ args, Forall₂ (inForceBy s.versions) i.uses (args.getD []) ∧
      ((i.dest = none ∧ i' = { i with args } ∧ s' = s) ∨
        ∃ d, i.dest = some d ∧ i' = { i with args, dest := some (s.push d).1 } ∧
          s' = (s.push d).2) := by
  obtain ⟨args, hargs, h⟩ := of_bind h
  refine ⟨args, ?_, ?_⟩
  · cases hi : i.args with
    | none =>
      rw [hi] at hargs
      obtain rfl := pure_eq_ok.mp hargs
      simp [Instr.uses, hi]
    | some xs =>
      rw [hi] at hargs
      obtain ⟨ys, hys, hargs⟩ := of_bind hargs
      obtain rfl := pure_eq_ok.mp hargs
      simp only [Instr.uses, hi, Option.getD_some]
      exact (mapM_eq_ok.mp hys).imp fun _ _ => current_eq_ok.mp
  · dsimp only at h
    cases hd : i.dest with
    | none =>
      rw [hd] at h
      obtain h := Prod.mk.inj (pure_eq_ok.mp h)
      exact .inl ⟨rfl, by rw [← h.1], h.2.symm⟩
    | some d =>
      rw [hd] at h
      obtain h := Prod.mk.inj (pure_eq_ok.mp h)
      exact .inr ⟨d, rfl, h.1.symm, h.2.symm⟩

lemma instrs_cons (h : s.instrs (i :: is) = .ok (is', s')) :
    ∃ i' mid is'', s.instr i = .ok (i', mid) ∧ mid.instrs is = .ok (is'', s') ∧ is' = i' :: is'' := by
  obtain ⟨⟨i', mid⟩, hi, h⟩ := of_bind h
  obtain ⟨⟨is'', s''⟩, his, h⟩ := of_bind h
  cases pure_eq_ok.mp h
  exact ⟨i', mid, is'', hi, his, rfl⟩

lemma instr_same (h : s.instr i = .ok (i', s')) : SameBlocks s s' := by
  obtain ⟨_, _, ⟨_, _, rfl⟩ | ⟨d, _, _, rfl⟩⟩ := instr_cases h
  · exact ⟨rfl, rfl, rfl⟩
  · exact ⟨rfl, rfl, rfl⟩

lemma instrs_same (h : s.instrs is = .ok (is', s')) : SameBlocks s s' := by
  induction is generalizing s is' with
  | nil =>
    cases h
    exact ⟨rfl, rfl, rfl⟩
  | cons i is ih =>
    obtain ⟨i', mid, is'', hi, his, rfl⟩ := instrs_cons h
    exact (instr_same hi).trans (ih his)

lemma instrs_issues (h : s.instrs is = .ok (is', s')) : Issues s s' (is'.filterMap Instr.dest) := by
  induction is generalizing s is' with
  | nil =>
    cases h
    exact .of_counts rfl
  | cons i is ih =>
    obtain ⟨i', mid, is'', hi, his, rfl⟩ := instrs_cons h
    obtain ⟨args, _, ⟨hd, rfl, rfl⟩ | ⟨d, hd, rfl, rfl⟩⟩ := instr_cases hi
    · have none : Instr.dest { i with args } = none := hd
      rw [filterMap_cons_none none]
      exact ih his
    · exact (push_issues rfl).trans (ih his)

lemma instrs_dests (h : s.instrs is = .ok (is', s')) (hi : i' ∈ is') (hn : i'.dest = some n) :
    ∃ i ∈ is, ∃ d k, i.dest = some d ∧ n = versionOf d k := by
  induction is generalizing s is' with
  | nil =>
    cases h
    cases hi
  | cons i is ih =>
    obtain ⟨j, mid, is'', hj, his, rfl⟩ := instrs_cons h
    obtain rfl | hi := mem_cons.mp hi
    · obtain ⟨args, _, ⟨hd, rfl, _⟩ | ⟨d, hd, rfl, _⟩⟩ := instr_cases hj
      · cases hd.symm.trans hn
      · exact ⟨i, by simp, d, _, hd, (Option.some.inj hn).symm⟩
    · obtain ⟨i, hi, found⟩ := ih his hi
      exact ⟨i, by simp [hi], found⟩

lemma instr_scope (h : s.instr i = .ok (i', s')) :
    (∀ n ∈ i'.uses, ∃ x, inForceBy s.versions x n) ∧
      ∀ x n, inForceBy s'.versions x n → inForceBy s.versions x n ∨ i'.dest = some n := by
  obtain ⟨args, all, last⟩ := instr_cases h
  have uses : ∀ n ∈ args.getD [], ∃ x, inForceBy s.versions x n := by
    intro n hn
    obtain ⟨x, _, hx⟩ := exists_of_mem_right all hn
    exact ⟨x, hx⟩
  obtain ⟨_, rfl, rfl⟩ | ⟨d, _, rfl, rfl⟩ := last
  · exact ⟨uses, fun x n hx => .inl hx⟩
  · refine ⟨uses, fun x n hx => ?_⟩
    rw [inForceBy_push, Naming.set] at hx
    split at hx
    · exact .inr (congrArg some hx.symm)
    · exact .inl hx

/-- Instructions read what is in force at the start or a result in front of them. -/
lemma instrs_scope (h : s.instrs is = .ok (is', s')) :
    (∀ done i todo, is' = done ++ i :: todo → ∀ n ∈ i.uses,
      (∃ x, inForceBy s.versions x n) ∨ ∃ j ∈ done, j.dest = some n) ∧
    ∀ x n, inForceBy s'.versions x n →
      inForceBy s.versions x n ∨ ∃ j ∈ is', j.dest = some n := by
  induction is generalizing s is' with
  | nil =>
    cases h
    exact ⟨by simp, fun x n hx => .inl hx⟩
  | cons i is ih =>
    obtain ⟨i', mid, is'', hi, his, rfl⟩ := instrs_cons h
    obtain ⟨uses, brings⟩ := instr_scope hi
    obtain ⟨later, final⟩ := ih his
    refine ⟨fun done j todo e n hn => ?_, fun x n hx => ?_⟩
    · cases done with
      | nil =>
        obtain ⟨rfl, rfl⟩ := List.cons.inj e
        exact .inl (uses n hn)
      | cons k done =>
        obtain ⟨rfl, rfl⟩ := List.cons.inj e
        obtain ⟨x, hx⟩ | ⟨j', hj', hd⟩ := later done j todo rfl n hn
        · exact (brings x n hx).imp (fun hx => ⟨x, hx⟩) fun hd => ⟨i', by simp, hd⟩
        · exact .inr ⟨j', by simp [hj'], hd⟩
    · obtain hx | ⟨j, hj, hd⟩ := final x n hx
      · exact (brings x n hx).imp_right fun hd => ⟨i', by simp, hd⟩
      · exact .inr ⟨j, by simp [hj], hd⟩

lemma instrs_versions (h : s.instrs is = .ok (is', s')) (hx : ∀ i ∈ is, i.dest ≠ some x) :
    s'.versions.getD x [] = s.versions.getD x [] := by
  induction is generalizing s is' with
  | nil =>
    cases h
    rfl
  | cons i is ih =>
    obtain ⟨i', mid, is'', hi, his, rfl⟩ := instrs_cons h
    rw [ih his fun j hj => hx j (by simp [hj])]
    obtain ⟨_, _, ⟨_, _, rfl⟩ | ⟨d, hd, _, rfl⟩⟩ := instr_cases hi
    · rfl
    · refine push_versions_other ?_
      rintro rfl
      exact hx i (by simp) hd

include ver in
/-- An instruction is renamed along the versions in force. -/
lemma instr_renames (h : s.instr i = .ok (i', s')) (hA : ∀ d, i.dest = some d → A d) :
    RenamesInstr σ (inForceBy s.versions) i i' (inForceBy s'.versions) := by
  obtain ⟨args, huses, ⟨hd, rfl, rfl⟩ | ⟨d, hd, rfl, rfl⟩⟩ := instr_cases h
  · exact ⟨rfl, huses.imp fun _ _ => .inl, .inl ⟨hd, rfl⟩⟩
  · refine ⟨by simp [Instr.shape, hd], huses.imp fun _ _ => .inl, .inr ⟨d, _, hd, rfl, ?_, ?_⟩⟩
    · rw [push_fst]
      exact ver d _ (hA d hd)
    · exact inForceBy_push

include ver in
/-- A block is renamed along the versions in force, whatever becomes of its last instruction. -/
lemma instrs_renames {last : Instr} (h : s.instrs (is ++ [last]) = .ok (is', s'))
    (hA : ∀ i ∈ is ++ [last], ∀ d, i.dest = some d → A d)
    (straight : ∀ i ∈ is, i.isTerminator = false) :
    ∃ body last' ν, is' = body ++ [last'] ∧
      RenamesInstr σ ν last last' (inForceBy s'.versions) ∧
      ∀ tail final, Renames σ ν [last] tail final →
        Renames σ (inForceBy s.versions) (is ++ [last]) (body ++ tail) final := by
  induction is generalizing s is' with
  | nil =>
    obtain ⟨last', mid, rest, hi, hrest, rfl⟩ := instrs_cons h
    cases hrest
    exact ⟨[], last', _, rfl, instr_renames ver hi (hA last (by simp)), fun _ _ h => h⟩
  | cons i is ih =>
    obtain ⟨i', mid, is'', hi, his, rfl⟩ := instrs_cons h
    obtain ⟨body, last', ν, rfl, hlast, all⟩ := ih his (fun j hj => hA j (by simp_all))
      fun j hj => straight j (by simp [hj])
    refine ⟨i' :: body, last', ν, rfl, hlast, fun tail final htail => ?_⟩
    refine .cons (instr_renames ver hi (hA i (by simp))) (fun ht => ?_) (all tail final htail)
    rw [straight i (by simp)] at ht
    cases ht

include ver in
lemma instrs_proper (h : s.instrs is = .ok (is', s'))
    (hA : ∀ i ∈ is, ∀ d, i.dest = some d → A d) (pr : (inForceBy s.versions).Proper σ.Version) :
    (inForceBy s'.versions).Proper σ.Version := by
  induction is generalizing s is' with
  | nil =>
    cases h
    exact pr
  | cons i is ih =>
    obtain ⟨i', mid, is'', hi, his, rfl⟩ := instrs_cons h
    exact ih his (fun j hj => hA j (by simp [hj]))
      ((instr_renames ver hi (hA i (by simp))).proper pr)

lemma instrs_shapes (h : s.instrs is = .ok (is', s')) : is'.map Instr.shape = is.map Instr.shape := by
  induction is generalizing s is' with
  | nil =>
    cases h
    rfl
  | cons i is ih =>
    obtain ⟨i', mid, is'', hi, his, rfl⟩ := instrs_cons h
    rw [map_cons, ih his]
    obtain ⟨_, _, ⟨_, rfl, rfl⟩ | ⟨d, hd, rfl, rfl⟩⟩ := instr_cases hi
    · rfl
    · simp [Instr.shape, hd]

end Instr

section Phis

variable {block target : String} {vars : List String} {new new' : String → String → Sources}

def startPhi (block : String) (s : Renaming) (v : String) : Renaming :=
  { (s.push v).2 with
    results := s.results.alter block fun t => (t.getD .empty).put v (s.push v).1 }

lemma startPhis_eq : s.startPhis block vars = vars.foldl (startPhi block) s := rfl

/-- What giving the phis of a block new versions leads to. -/
structure Started (block : String) (vars : List String) (s s' : Renaming) : Prop where
  blocks : s'.blocks = s.blocks
  sources : s'.sources = s.sources
  elsewhere : ∀ c, c ≠ block → s'.results.get? c = s.results.get? c
  kept : ∀ x, x ∉ vars →
    (s'.results.getD block .empty).get? x = (s.results.getD block .empty).get? x
  versions : ∀ x, x ∉ vars → s'.versions.getD x [] = s.versions.getD x []
  counts : ∀ x, x ∉ vars → s'.counts.getD x 0 = s.counts.getD x 0
  phis : ∀ x ∈ vars, s'.versions.getD x [] = (s.push x).1 :: s.versions.getD x [] ∧
    s'.counts.getD x 0 = s.counts.getD x 0 + 1 ∧
    (s'.results.getD block .empty).get? x = some (s.push x).1
  issues : ∃ names, Issues s s' names ∧
    Forall₂ (fun x n => (s'.results.getD block .empty).get? x = some n) vars names

lemma startPhi_results : (startPhi block s v).results.getD block .empty =
    (s.results.getD block .empty).put v (s.push v).1 := getD_put_same

/-- The phis of a block get new versions, in force and noted as results. -/
lemma startPhis_started (s : Renaming) (block : String) (nd : vars.Nodup) :
    Started block vars s (s.startPhis block vars) := by
  rw [startPhis_eq]
  induction vars generalizing s with
  | nil =>
    exact ⟨rfl, rfl, fun _ _ => rfl, fun _ _ => rfl, fun _ _ => rfl, fun _ _ => rfl, by simp, [],
      .of_counts rfl, .nil⟩
  | cons v vars ih =>
    obtain ⟨hv, nd⟩ := nodup_cons.mp nd
    have st := ih (s := startPhi block s v) nd
    have result : ((vars.foldl (startPhi block) (startPhi block s v)).results.getD block
        .empty).get? v = some (s.push v).1 := by
      rw [st.kept v hv, startPhi_results, get?_put_same]
    rw [foldl_cons]
    exact {
      blocks := st.blocks
      sources := st.sources
      elsewhere := fun c hc => by
        rw [st.elsewhere c hc]
        exact get?_put_other hc
      kept := fun x hx => by
        obtain ⟨hxv, hx⟩ := not_or.mp (mem_cons.not.mp hx)
        rw [st.kept x hx, startPhi_results, get?_put_other hxv]
      versions := fun x hx => by
        obtain ⟨hxv, hx⟩ := not_or.mp (mem_cons.not.mp hx)
        rw [st.versions x hx]
        exact push_versions_other hxv
      counts := fun x hx => by
        obtain ⟨hxv, hx⟩ := not_or.mp (mem_cons.not.mp hx)
        rw [st.counts x hx]
        exact getD_put_other hxv
      phis := fun x hx => by
        obtain rfl | hx := mem_cons.mp hx
        · exact ⟨(st.versions x hv).trans push_versions_same, (st.counts x hv).trans getD_put_same,
            result⟩
        · have hxv : x ≠ v := fun e => hv (e ▸ hx)
          have versions : (startPhi block s v).versions.getD x [] = s.versions.getD x [] :=
            push_versions_other hxv
          have count : (startPhi block s v).counts.getD x 0 = s.counts.getD x 0 :=
            getD_put_other hxv
          simpa only [push_fst, versions, count] using st.phis x hx
      issues := by
        obtain ⟨names, iss, all⟩ := st.issues
        have one : Issues s (startPhi block s v) [(s.push v).1] := push_issues rfl
        exact ⟨(s.push v).1 :: names, one.trans iss, .cons result all⟩ }

lemma keys_sources {phis : FlowMap} (nd : (phis.getD n []).Nodup) :
    ((phis.map fun vs => (.ofList (vs.map fun v => (v, [])) : Table String Sources)).getD n
      .empty).keys = phis.getD n [] := by
  simp only [Table.getD, get?_map] at nd ⊢
  cases h : phis.get? n with
  | none => rfl
  | some vs =>
    rw [h] at nd
    simp only [Option.map_some, Option.getD_some, Table.keys] at nd ⊢
    rw [entries_ofList (by simpa [Function.comp_def] using nd), map_map]
    exact map_id' _

lemma getD_sources {phis : FlowMap} :
    ((phis.map fun vs => (.ofList (vs.map fun v => (v, [])) : Table String Sources)).getD n
      .empty).getD x [] = [] := by
  simp only [Table.getD, get?_map]
  cases phis.get? n with
  | none => rfl
  | some vs =>
    rw [Option.map_some, Option.getD_some, get?_ofList_map]
    split <;> rfl

def operands (s : Renaming) (c x : String) : Sources := (s.sources.getD c .empty).getD x []

def handed (versions : Table String (List String)) (x : String) : String :=
  (versions.getD x []).headD undefinedName

def feedOne (block target : String) (s : Renaming) (v : String) : Renaming :=
  { s with sources := s.sources.alter target fun t =>
      (t.getD .empty).alter v fun ps => ps.getD [] ++ [(block, handed s.versions v)] }

lemma feed_eq : s.feed block target vars = vars.foldl (feedOne block target) s := rfl

/-- What handing versions on leads to: the operands that each phi gets. -/
structure Fed (s s' : Renaming) (new : String → String → Sources) : Prop where
  blocks : s'.blocks = s.blocks
  results : s'.results = s.results
  versions : s'.versions = s.versions
  counts : s'.counts = s.counts
  operands : ∀ c x, s'.operands c x = s.operands c x ++ new c x
  keys : ∀ c x, x ∈ (s'.sources.getD c .empty).keys ↔
    x ∈ (s.sources.getD c .empty).keys ∨ new c x ≠ []
  nodup : (∀ c, (s.sources.getD c .empty).keys.Nodup) → ∀ c, (s'.sources.getD c .empty).keys.Nodup

lemma Fed.refl : Fed s s fun _ _ => [] where
  blocks := rfl
  results := rfl
  versions := rfl
  counts := rfl
  operands := by simp
  keys := by simp
  nodup nd := nd

lemma Fed.trans {s'' : Renaming}
    (h : Fed s s' new) (h' : Fed s' s'' new') : Fed s s'' fun c x => new c x ++ new' c x where
  blocks := h'.blocks.trans h.blocks
  results := h'.results.trans h.results
  versions := h'.versions.trans h.versions
  counts := h'.counts.trans h.counts
  operands c x := by rw [h'.operands, h.operands, append_assoc]
  keys c x := by
    rw [h'.keys, h.keys, or_assoc]
    simp only [ne_eq, append_eq_nil_iff, not_and_or]
  nodup nd := h'.nodup (h.nodup nd)

lemma Fed.congr (h : Fed s s' new) (e : ∀ c x, new c x = new' c x) : Fed s s' new' := by
  have : new = new' := by
    funext c x
    exact e c x
  rwa [← this]

lemma feedOne_fed : Fed s (feedOne block target s v) fun c x =>
    if c = target ∧ x = v then [(block, handed s.versions v)] else [] where
  blocks := rfl
  results := rfl
  versions := rfl
  counts := rfl
  operands c x := by
    simp only [operands, feedOne, Table.alter]
    by_cases hc : c = target
    · subst hc
      rw [getD_put_same]
      by_cases hx : x = v
      · subst hx
        rw [getD_put_same]
        simp [Table.getD]
      · rw [getD_put_other hx]
        simp [Table.getD, hx]
    · rw [getD_put_other hc]
      simp [hc]
  keys c x := by
    simp only [feedOne, Table.alter]
    by_cases hc : c = target
    · subst hc
      rw [getD_put_same, mem_keys_put]
      simp [Table.getD, or_comm]
    · rw [getD_put_other hc]
      simp [hc]
  nodup nd c := by
    simp only [feedOne, Table.alter]
    by_cases hc : c = target
    · subst hc
      rw [getD_put_same]
      exact nodup_put (nd c)
    · rw [getD_put_other hc]
      exact nd c

lemma feed_fed (s : Renaming) (block target : String) (nd : vars.Nodup) :
    Fed s (s.feed block target vars) fun c x =>
      if c = target ∧ x ∈ vars then [(block, handed s.versions x)] else [] := by
  rw [feed_eq]
  induction vars generalizing s with
  | nil => exact Fed.refl.congr (by simp)
  | cons v vars ih =>
    obtain ⟨hv, nd⟩ := nodup_cons.mp nd
    rw [foldl_cons]
    refine (feedOne_fed.trans (ih _ nd)).congr fun c x => ?_
    have same : (feedOne block target s v).versions = s.versions := rfl
    rw [same]
    by_cases hx : x = v
    · subst hx
      simp [hv]
    · simp [hx]

end Phis

end Renaming

end Ssa

end BrilKit
