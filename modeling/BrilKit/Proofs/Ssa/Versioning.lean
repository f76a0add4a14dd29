import BrilKit.Proofs.Ssa.Twin
import BrilKit.Proofs.Ssa.VersionFlow

/-!
# Blocks with versions as twins

Blocks whose versions are numbered and whose uses are linked are twins of the blocks of a flow graph.
Main statement: along every edge that control can take, the phis of the next block select the versions
that leave the last one, so the twins fit together.
-/

namespace BrilKit

open List

namespace Ssa

open FlowGraph

variable {g : FlowGraph} {bs blocks : List Block} {k : Nat} {b b' is phis is' phis' code' : Block}
  {i : Instr} {x d : String} {ν : Naming} {fronts : Table Nat (List Nat)} {n : Node}

/-- The versions of variables without a dot in their names. -/
def numberedScheme : Scheme := ⟨IsVersion, False, fun _ => False⟩

lemma VersionsResult.version {i' : Instr} (v : VersionsResult i i') (d : String)
    (hd : i'.dest = some d) : IsVersion (variableOf d) d := by
  obtain ⟨_, e⟩ | ⟨x, n, hx, _, e⟩ := v.dest
  · rw [e] at hd
    cases hd
  · rw [e] at hd
    cases hd
    rw [variableOf_versionOf hx]
    exact ⟨hx, n, rfl⟩

/-- A block in which all results are versions and phis stand behind the label. -/
structure Prepared (b b' : Block) (i : Instr) (is phis is' : Block) : Prop where
  source : b = i :: is
  target : b' = i :: (phis ++ is')
  head : i.op = none ∧ i.dest = none
  code : Forall₂ VersionsResult is is'
  free : ∀ j ∈ is, j.op ≠ some "phi"
  nodup : (phiVars phis).Nodup
  phis : ∀ p ∈ phis, ∃ x n t, '.' ∉ x.toList ∧ p = emptyPhi (versionOf x n) t

/-- The blocks of a graph without phis, each with a label in front, whose variables have no dots in
their names. -/
structure Undotted (g : FlowGraph) : Prop where
  blocks : ∀ n ∈ g, Unnumbered n.block
  labels : ∀ n ∈ g, ∃ i is, n.block = i :: is ∧ i.op = none ∧ i.dest = none
  dests : ∀ n ∈ g, ∀ i ∈ n.block, ∀ x, i.dest = some x → '.' ∉ x.toList

lemma AllNumbered.prepared (an : AllNumbered .iterative g fronts bs) (ud : Undotted g)
    (hn : g[k]? = some n) (hb : bs[k]? = some b') :
    ∃ i is phis is', Prepared n.block b' i is phis is' := by
  have mem := mem_of_getElem? hn
  obtain ⟨i, i', is, phis, is', e, e', code, hphis, nd⟩ := an.results (ud.dests n mem) hn hb
  obtain ⟨j, js, ej, ho, hd⟩ := ud.labels n mem
  obtain ⟨rfl, rfl⟩ : j = i ∧ js = is := by simpa using ej.symm.trans e
  obtain ⟨head, rest⟩ := forall₂_cons.mp code
  obtain rfl : i' = j := by
    obtain ⟨_, hd'⟩ | ⟨x, m, _, hx, _⟩ := head.dest
    · rw [head.others, hd', ← hd]
    · rw [hd] at hx
      cases hx
  exact ⟨i', js, phis, is', e, e', ⟨ho, hd⟩, rest,
    fun a ha => (ud.blocks n mem).free a (by simp [e, ha]), nd, hphis⟩

lemma lastOf_of_not_mem (form : ∀ p ∈ phis, ∃ x n t, '.' ∉ x.toList ∧ p = emptyPhi (versionOf x n) t)
    (hx : x ∉ phiVars phis) : lastOf x phis = none := by
  by_contra hne
  obtain ⟨e, he⟩ := Option.ne_none_iff_exists'.mp hne
  obtain ⟨hxe, q, hq, hqe⟩ := exists_of_lastOf he
  obtain ⟨z, l, u, hz, rfl⟩ := form q hq
  refine hx (mem_filterMap.mpr ⟨_, hq, ?_⟩)
  simp only [emptyPhi, Instr.hasOp] at hqe ⊢
  simp [hqe, hxe]

namespace Prepared

variable (pp : Prepared b b' i is phis is')
include pp

lemma phiVars_eq : phiVars b' = Ssa.phiVars phis := by
  have hi : i.hasOp "phi" = false := by simp [Instr.hasOp, pp.head.1]
  have code : ∀ {js js' : Block}, Forall₂ VersionsResult js js' →
      (∀ j ∈ js, j.op ≠ some "phi") → Ssa.phiVars js' = [] := by
    intro js js' h free
    refine Numbers.phiVars_eq (h.imp fun a a' v => ⟨v.others, ?_⟩) free
    obtain ⟨e, e'⟩ | ⟨x, n, _, e, e'⟩ := v.dest
    · exact .inl (e'.trans e.symm)
    · exact .inr ⟨x, n, e, e'⟩
  rw [pp.target, Ssa.phiVars, filterMap_cons, hi]
  change Ssa.phiVars (phis ++ is') = _
  rw [phiVars_append, code pp.code pp.free, append_nil]

lemma versions_phis : AllVersions phis := by
  intro p hp d hd
  obtain ⟨x, n, t, hx, rfl⟩ := pp.phis p hp
  obtain rfl : versionOf x n = d := Option.some.inj hd
  rw [variableOf_versionOf hx]
  exact ⟨hx, n, rfl⟩

lemma versions_code : AllVersions is' := by
  intro a' ha' d hd
  obtain ⟨a, _, v⟩ := exists_of_mem_right pp.code ha'
  exact v.version d hd

lemma versions : AllVersions b' := by
  rw [pp.target]
  intro a ha
  rw [mem_cons, mem_append] at ha
  obtain rfl | ha | ha := ha
  · simp [pp.head.2]
  · exact pp.versions_phis a ha
  · exact pp.versions_code a ha

lemma lastOf_eq : lastOf x b' = (lastOf x is').or (lastOf x phis) := by
  have head : i.dest = none := pp.head.2
  have e : i :: (phis ++ is') = [i] ++ phis ++ is' := by simp
  rw [pp.target, e, lastOf_append]
  simp [lastOf, head]

lemma lastOf_phis {p : Instr} (hp : p ∈ phis) (hd : p.dest = some d) :
    lastOf (variableOf d) phis = some d := by
  have all : ∀ qs : Block, (∀ q ∈ qs, ∃ x n t, '.' ∉ x.toList ∧ q = emptyPhi (versionOf x n) t) →
      (Ssa.phiVars qs).Nodup → p ∈ qs → lastOf (variableOf d) qs = some d := by
    intro qs
    induction qs with
    | nil => simp
    | cons q qs ih =>
      intro form nd hp
      obtain ⟨y, m, t, hy, rfl⟩ := form q (by simp)
      have hv : Ssa.phiVars (emptyPhi (versionOf y m) t :: qs) = y :: Ssa.phiVars qs := by
        rw [← singleton_append, phiVars_append, phiVars_emptyPhi hy]
        rfl
      rw [hv, nodup_cons] at nd
      have form' := fun q hq => form q (mem_cons_of_mem _ hq)
      obtain rfl | hp := mem_cons.mp hp
      · obtain rfl : versionOf y m = d := Option.some.inj hd
        rw [variableOf_versionOf hy, lastOf, lastOf_of_not_mem form' nd.1, Option.none_or]
        simp [emptyPhi, Option.filter, variableOf_versionOf hy]
      · rw [lastOf, ih form' nd.2 hp, Option.some_or]
  exact all phis pp.phis pp.nodup hp

lemma lastOf_phis_of_not_mem (hx : x ∉ Ssa.phiVars phis) : lastOf x phis = none :=
  lastOf_of_not_mem pp.phis hx

lemma assigns (h : lastOf x b' = some d) :
    x ∈ Ssa.phiVars b' ∨ ∃ j ∈ is, j.dest = some x := by
  rw [pp.lastOf_eq, Option.or_eq_some_iff] at h
  obtain h | ⟨_, h⟩ := h
  · obtain ⟨rfl, j', hj', hd⟩ := exists_of_lastOf h
    obtain ⟨j, hj, v⟩ := exists_of_mem_right pp.code hj'
    obtain ⟨_, e⟩ | ⟨y, n, hy, e, e'⟩ := v.dest
    · rw [e] at hd
      cases hd
    · rw [e'] at hd
      cases hd
      rw [variableOf_versionOf hy]
      exact .inr ⟨j, hj, e⟩
  · left
    rw [pp.phiVars_eq]
    by_contra hx
    rw [pp.lastOf_phis_of_not_mem hx] at h
    cases h

lemma exists_lastOf {j : Instr} (hj : j ∈ b) (hd : j.dest = some x) : ∃ d, lastOf x b' = some d := by
  rw [pp.source] at hj
  obtain rfl | hj := mem_cons.mp hj
  · rw [pp.head.2] at hd
    cases hd
  · -- The assignment is numbered.
    obtain ⟨j', hj', v⟩ := exists_of_mem_right pp.code.flip hj
    obtain ⟨e, _⟩ | ⟨y, m, hy, e, e'⟩ := v.dest
    · rw [hd] at e
      cases e
    · rw [hd] at e
      cases e
      have hmem : j' ∈ b' := by simp [pp.target, hj']
      obtain ⟨d, hd⟩ := lastOf_of_dest hmem e'
      rw [variableOf_versionOf hy] at hd
      exact ⟨d, hd⟩

lemma fresh : ∀ j ∈ b', j.op = some "phi" → j.args = some [] ∧ j.labels = some [] := by
  intro j hj ho
  rw [pp.target, mem_cons, mem_append] at hj
  obtain rfl | hj | hj := hj
  · rw [pp.head.1] at ho
    cases ho
  · obtain ⟨_, _, _, _, rfl⟩ := pp.phis j hj
    exact ⟨rfl, rfl⟩
  · obtain ⟨a, ha, v⟩ := exists_of_mem_right pp.code hj
    rw [v.others] at ho
    exact absurd ho (pp.free a ha)

end Prepared

/-- Numbering brings at most one version of a variable to a block without a phi for it. -/
theorem AllNumbered.phased {s : DomState} (an : AllNumbered .iterative g (frontier s) bs) (ud : Undotted g)
    (w : Rooted g) (st : Settled g s) (hn : g[0]? = some n) (hi : i ∈ n.block)
    (hd : i.dest = some x) : Linking.Phased g bs x := by
  have len : bs.length = g.length := by simpa [FlowGraph.blocks] using an.numbered.length
  have prep : ∀ (k : Nat) b', bs[k]? = some b' → ∃ n, g[k]? = some n ∧
      ∃ i is phis is', Prepared n.block b' i is phis is' := by
    intro k b' hb
    have hk : k < g.length := len ▸ lt_of_getElem? hb
    have hn := List.getElem?_eq_getElem hk
    exact ⟨g[k], hn, an.prepared ud hn hb⟩
  have closed : ∀ y d, Assigns bs y d → ∀ j ∈ (frontier s).getD d [], HasPhi bs y j := by
    rintro y d ⟨b', v, hb, hv⟩ j hj
    obtain ⟨n, hn, i, is, phis, is', pp⟩ := prep d b' hb
    obtain hphi | ⟨a, ha, hd⟩ := pp.assigns hv
    · exact (an.phis y d ⟨b', hb, hphi⟩).1 rfl j hj
    · exact an.sites d n hn a (by simp [pp.source, ha]) y hd j hj
  have sub : ∀ y k, HasPhi bs y k → Assigns bs y k := by
    rintro y k ⟨b', hb, hy⟩
    obtain ⟨a, ha, e⟩ := mem_filterMap.mp hy
    split at e
    · obtain ⟨d, hd, rfl⟩ := Option.map_eq_some_iff.mp e
      obtain ⟨d', hd'⟩ := lastOf_of_dest ha hd
      exact ⟨b', d', hb, hd'⟩
    · cases e
  exact {
    length := len
    versions := fun b hb => by
      obtain ⟨k, hk⟩ := mem_iff_getElem?.mp hb
      obtain ⟨_, _, _, _, _, _, pp⟩ := prep k b hk
      exact pp.versions
    phis := sub
    unique := fun y k n m hk h h' => arriving_unique w st (closed y) (sub y) hk h h'
    first := by
      have h0 : 0 < bs.length := len ▸ lt_of_getElem? hn
      have hb := List.getElem?_eq_getElem h0
      obtain ⟨n', hn', j, is, phis, is', pp⟩ := prep 0 _ hb
      rw [hn] at hn'
      cases hn'
      obtain ⟨d, hd⟩ := pp.exists_lastOf hi hd
      exact ⟨_, d, hb, hd⟩ }

section Parts

variable {n : Node} {pred : List Nat} {tables : List Versions} {force force' : Versions}
  {b₀ c c' : Block}

lemma Linked.head (h : Linked g bs k ν (i :: b) b') (ho : i.op = none) (hd : i.dest = none)
    (ha : i.args = none) : ∃ c, b' = i :: c ∧ Linked g bs k ν b c := by
  have after : ν.after [i] = ν := Naming.after_plain hd
  cases h with
  | phi hphi _ _ =>
    rw [ho] at hphi
    cases hphi
  | @use _ _ i' _ is' _ l rest =>
    rw [after] at rest
    refine ⟨is', ?_, rest⟩
    rw [l.others, l.bare ha, ← ha]

lemma Linked.collects (h : Linked g bs k ν b b') (all : ∀ p ∈ b, p.op = some "phi") :
    Forall₂ (Collects g bs k) b b' := by
  induction h with
  | nil => exact .nil
  | phi _ c _ ih => exact .cons c (ih fun p hp => all p (by simp [hp]))
  | use ho _ _ _ => exact absurd (all _ (by simp)) ho

lemma Linked.exists_item {j : Instr} (h : Linked g bs k ν b b') (hj : j ∈ b') :
    ∃ i ∈ b, j.op = i.op ∧ j.label = i.label := by
  induction h with
  | nil => simp at hj
  | @phi _ i _ is _ _ c _ ih =>
    obtain rfl | hj := mem_cons.mp hj
    · exact ⟨i, mem_cons_self, by rw [c.others], by rw [c.others]⟩
    · obtain ⟨i, hi, same⟩ := ih hj
      exact ⟨i, mem_cons_of_mem _ hi, same⟩
  | @use _ i _ is _ _ l _ ih =>
    obtain rfl | hj := mem_cons.mp hj
    · exact ⟨i, mem_cons_self, by rw [l.others], by rw [l.others]⟩
    · obtain ⟨i, hi, same⟩ := ih hj
      exact ⟨i, mem_cons_of_mem _ hi, same⟩

lemma Linked.unlabelled (h : Linked g bs k ν b b') (hl : ∀ j ∈ b, j.label = none) :
    ∀ j ∈ b', j.label = none := by
  intro j hj
  obtain ⟨i, hi, _, e⟩ := h.exists_item hj
  exact e.trans (hl i hi)

lemma Prepared.parts (pp : Prepared b b₀ i is phis is') (ha : i.args = none)
    (lk : Linked g bs k ν b₀ b') : ∃ phis' code', b' = i :: (phis' ++ code') ∧
      Linked g bs k ν phis phis' ∧ Linked g bs k (ν.after phis) is' code' := by
  rw [pp.target] at lk
  obtain ⟨c, rfl, rest⟩ := lk.head pp.head.1 pp.head.2 ha
  obtain ⟨phis', code', rfl, hphis, hcode⟩ := rest.append
  exact ⟨phis', code', rfl, hphis, hcode⟩

lemma linkBlock_head (ho : i.op = none) (hd : i.dest = none) (ha : i.args = none)
    (h : linkBlock g pred tables false force (i :: b) = .ok (force', b')) :
    ∃ c, b' = i :: c ∧ linkBlock g pred tables false force b = .ok (force', c) := by
  obtain ⟨j, c, rfl, hj, rest⟩ := linkBlock_cons h
  obtain ⟨_, ⟨_, rfl⟩ | ⟨_, hphi, _⟩ | ⟨xs, hxs, _⟩⟩ := linkInstr_cases hj
  · refine ⟨c, rfl, ?_⟩
    simpa only [behindInstr, hd] using rest
  · rw [ho] at hphi
    cases hphi
  · rw [ha] at hxs
    cases hxs

lemma complete_phis (ar : Arrived g bs k pred tables) (all : ∀ p ∈ b, p.op = some "phi")
    (lk : Linked g bs k ν b c) (h : linkBlock g pred tables false force c = .ok (force', c')) :
    Forall₂ (fun p p' => Collects g bs k p p' ∧ Complete g pred tables p') b c' := by
  induction lk generalizing force c' with
  | nil =>
    cases h
    exact .nil
  | phi ho cl _ ih =>
    obtain ⟨j, d, rfl, hj, h⟩ := linkBlock_cons h
    exact .cons (cl.relink ar ho hj) (ih (fun p hp => all p (by simp [hp])) h)
  | use ho _ _ _ => exact absurd (all _ (by simp)) ho

/-- The versions in force at the start of code are those in a table. -/
structure Holds (force : Versions) (ν : Naming) : Prop where
  backed : Backed force ν
  full : ∀ x v, ν x v → force.get? x = some v

lemma Holds.behind {i' : Instr} (h : Holds force ν) (hd : i'.dest = i.dest) :
    Holds (behindInstr force i') (ν.after [i]) where
  backed := h.backed.behind hd
  full x v hv := by
    have e : lastOf x [i'] = lastOf x [i] := by simp only [lastOf, hd]
    rw [get?_behindInstr, e]
    cases hl : lastOf x [i] with
    | some d => rw [(Naming.after_of_lastOf hl).mp hv, Option.some_or]
    | none => rw [Option.none_or, h.full x v ((Naming.after_of_none hl).mp hv)]

lemma reads_of_linked (h : Holds force ν) {xs xs' : List String} (plain : ∀ x ∈ xs, '.' ∉ x.toList)
    (hx : Forall₂ (fun x x' => x' = x ∧ force.get? x = none ∨ ν x x') xs xs') :
    Forall₂ (Reads IsVersion ν) xs xs' := by
  induction hx with
  | nil => exact .nil
  | @cons x x' xs xs' hx _ ih =>
    refine .cons ?_ (ih fun y hy => plain y (by simp [hy]))
    obtain ⟨rfl, hnone⟩ | hx := hx
    · refine .inr ⟨fun n hn => ?_, fun y ver => ?_⟩
      · rw [h.full x' n hn] at hnone
        cases hnone
      · obtain ⟨_, m, rfl⟩ := ver
        exact plain (versionOf y m) (by simp) dot_mem_versionOf
    · exact .inl hx

/-- Code that is linked once more with the versions in force is renamed. -/
lemma renames_code (hv : Forall₂ VersionsResult is is') (free : ∀ j ∈ is, j.op ≠ some "phi")
    (plain : ∀ j ∈ is, ∀ x ∈ j.uses, '.' ∉ x.toList)
    (ends : ∀ done j todo, is = done ++ j :: todo → j.isTerminator = true → todo = [])
    (pr : ν.Proper IsVersion) (lk : Linked g bs k ν is' c) (hf : Holds force ν)
    (h : linkBlock g pred tables false force c = .ok (force', c')) :
    Renames numberedScheme ν is c' (some (ν.after is')) := by
  induction hv generalizing ν force c c' with
  | nil =>
    cases lk
    cases h
    exact .nil
  | @cons j j' js js' v rest ih =>
    have hop : j'.op ≠ some "phi" := by
      rw [v.others]
      exact free j (by simp)
    cases lk with
    | phi hphi _ _ => exact absurd hphi hop
    | @use _ _ a _ as _ l lk =>
      obtain ⟨a', c'', rfl, ha, h⟩ := linkBlock_cons h
      have hda : a'.dest = j'.dest := by rw [linkInstr_dest ha, l.others]
      obtain ⟨others, _, uses⟩ := l.relink pr hf.backed hop ha
      have huses : j'.uses = j.uses := by rw [v.others]; rfl
      have version : AllVersions [j'] := forall_mem_singleton.mpr v.version
      have next := ih (fun e he => free e (by simp [he])) (fun e he => plain e (by simp [he]))
        (fun done e todo h => ends (j :: done) e todo (by simp [h])) (pr.after version) lk
        (hf.behind hda) h
      rw [← singleton_append (x := j'), Naming.after_append]
      refine .cons ⟨?_, ?_, ?_⟩ (fun ht => ?_) next
      · rw [others, v.others]
        simp only [Instr.shape]
        obtain ⟨e, e'⟩ | ⟨x, m, _, e, e'⟩ := v.dest <;> simp [e, e']
      · rw [huses] at uses
        exact reads_of_linked hf (plain j (by simp)) uses
      · obtain ⟨e, e'⟩ | ⟨x, m, hx, e, e'⟩ := v.dest
        · exact .inl ⟨e, Naming.after_plain e'⟩
        · refine .inr ⟨x, versionOf x m, e, hda.trans e', ⟨hx, m, rfl⟩, ?_⟩
          rw [Naming.after_assign e', variableOf_versionOf hx]
      · obtain rfl := ends [] j js rfl ht
        cases rest
        cases lk
        cases h
        rfl

end Parts

def DistinctLabels (g : FlowGraph) : Prop :=
  ∀ (p q : Nat) n m l, g[p]? = some n → g[q]? = some m → n.label = some l → m.label = some l → p = q

section Links

variable {n : Node} {tables : List Versions} {force : Versions} {b₀ : Block} {y : String}

lemma forall₂_phiVars {R : String → Instr → Prop} {S : Instr → Instr → Prop}
    (form : ∀ p ∈ phis, ∃ x n t, '.' ∉ x.toList ∧ p = emptyPhi (versionOf x n) t)
    (h : Forall₂ S phis phis')
    (one : ∀ x n t p', '.' ∉ x.toList → emptyPhi (versionOf x n) t ∈ phis →
      S (emptyPhi (versionOf x n) t) p' → R x p') :
    Forall₂ R (phiVars phis) phis' := by
  induction h with
  | nil => exact .nil
  | @cons p p' ps ps' hp _ ih =>
    obtain ⟨x, n, t, hx, rfl⟩ := form p (by simp)
    have hv : phiVars (emptyPhi (versionOf x n) t :: ps) = x :: phiVars ps := by
      rw [← singleton_append, phiVars_append, phiVars_emptyPhi hx]
      rfl
    rw [hv]
    exact .cons (one x n t p' hx (by simp) hp) (ih (fun q hq => form q (by simp [hq]))
      fun y m u q hy hq => one y m u q hy (by simp [hq]))

/-- Over every edge that control can take, the phis of a block select the versions that leave the
block in front. -/
lemma links_of_resolved (ph : Linking.Phased g bs y) (inj : DistinctLabels g)
    (rs : Linking.Resolved g bs blocks k n tables b₀ b b' force)
    (pp : Prepared n.block b₀ i is phis is')
    (hphis : Forall₂ (fun p p' => Collects g bs k p p' ∧ Complete g n.pred tables p') phis
      phis')
    {p : Nat} {m : Node} {l : String} (live : g.Live p) (e : g.Edge p k) (hm : g[p]? = some m)
    (hl : m.label = some l) :
    Links numberedScheme l (leaving g bs p) phis' ((arriving g bs k).after phis) := by
  obtain ⟨j, t, hj, ht, come⟩ := rs.edges p live e
  refine ⟨⟨phiVars phis, pp.nodup, forall₂_phiVars pp.phis hphis ?_, fun x hx => ?_⟩,
    fun h => h.elim⟩
  · rintro x c ty p' hx hmem ⟨cl, cp⟩
    have hd : p'.dest = some (versionOf x c) := by rw [cl.others]; rfl
    have hv := variableOf_versionOf (n := c) hx
    have last := pp.lastOf_phis hmem (d := versionOf x c) rfl
    rw [hv] at last
    refine {
      op := by rw [cl.others]; rfl
      arity := cl.arity
      dest := ⟨_, hd, ⟨hx, c, rfl⟩, fun o => Naming.after_of_lastOf last⟩
      operand := fun o ho => ?_
      missing := fun hnone v hleave => ?_ }
    · -- The label tells the edge that the operand came over.
      have hmem := Table.mem_of_get? (t := ⟨(p'.labels.getD []).zip p'.uses⟩) ho
      obtain ⟨q, m', d, _, _, hq, hl', hd', leaves⟩ := cl.operands l o hmem
      obtain rfl : q = p := inj q p m' m l hq hm hl' hl
      obtain rfl : versionOf x c = d := Option.some.inj hd'
      rw [hv] at leaves
      exact .inl leaves
    · have hkey := (Table.get?_eq_none (t := ⟨(p'.labels.getD []).zip p'.uses⟩)).mp hnone
      rw [Table.keys, map_fst_zip (Nat.le_of_eq cl.arity)] at hkey
      obtain ⟨w, hw⟩ := come x v hleave
      exact hkey (cp _ hd j p m l t w hj hm hl ht (by rw [hv, hw]))
  · have same : ∀ v, (arriving g bs k).after phis x v ↔ arriving g bs k x v := fun v =>
      Naming.after_of_none (pp.lastOf_phis_of_not_mem hx)
    have hphi : ¬ HasPhi bs x k := by
      rintro ⟨c, hc, hmem⟩
      rw [rs.first] at hc
      cases hc
      exact hx (pp.phiVars_eq ▸ hmem)
    refine ⟨fun v hv => ?_, fun lack v hv => ?_⟩
    · rw [same] at hv
      by_cases h : ∃ w, leaving g bs p x w
      · obtain ⟨w, hw⟩ := h
        obtain rfl := ph.unique x k w v hphi (arriving_of_leaving live e hw) hv
        exact .inl hw
      · exact .inr ⟨fun w hw => h ⟨w, hw⟩, proper_arriving ph.versions x v hv⟩
    · exact lack v ((same v).mpr (arriving_of_leaving live e hv))

lemma holds_behind_phis {mid : Versions} {c c' : Block}
    (rs : Linking.Resolved g bs blocks k n tables b₀ b b' force)
    (pp : Prepared n.block b₀ i is phis is') (lk : Linked g bs k (arriving g bs k) phis c)
    (h : linkBlock g n.pred tables false (inForce tables) c = .ok (mid, c')) :
    Holds mid ((arriving g bs k).after phis) where
  backed := rs.arrived.backed.after fun x => by rw [get?_linkBlock h, lk.lastOf_eq]
  full x v hv := by
    rw [get?_linkBlock h, lk.lastOf_eq]
    cases hl : lastOf x phis with
    | some d => rw [(Naming.after_of_lastOf hl).mp hv, Option.some_or]
    | none =>
      refine rs.settled x v ?_ ((Naming.after_of_none hl).mp hv)
      rintro ⟨c, hc, hmem⟩
      rw [rs.first] at hc
      cases hc
      rw [pp.phiVars_eq] at hmem
      obtain ⟨q, hq, e⟩ := mem_filterMap.mp hmem
      split at e
      · obtain ⟨d, hd, rfl⟩ := Option.map_eq_some_iff.mp e
        rw [pp.lastOf_phis hq hd] at hl
        cases hl
      · cases e

end Links

/-- A twin that belongs at a place in the graph. -/
structure Fits (g : FlowGraph) (bs : List Block) (k : Nat) (t : Twin) : Prop where
  node : ∃ n, g[k]? = some n ∧ n.label = t.head.label ∧ (∀ i ∈ t.code, i ∈ n.block) ∧
    ((∀ i ∈ t.code, i.isTerminator = false) → ∀ i ∈ n.block, i.isTerminator = false)
  head : t.head.op = none ∧ ∃ l, t.head.label = some l
  code : ∀ i ∈ t.code, i.label = none ∧ ∃ op, i.op = some op ∧ op ≠ "phi"
  renamed : ∀ i ∈ t.phis ++ t.renamed, i.label = none
  proper : t.start.Proper IsVersion
  final : t.final = some (leaving g bs k)
  renames : g.Live k → Renames numberedScheme t.start t.code t.renamed t.final
  links : ∀ (p : Nat) m l, g.Live p → g.Live k → g.Edge p k → g[p]? = some m → m.label = some l →
    Links numberedScheme l (leaving g bs p) t.phis t.start

/-- A twin for each block of a graph, and edges for all ways that control takes: the twins fit
together. -/
theorem versioned_of_fits {L : List Twin} (charted : Charted g)
    (inj : DistinctLabels g) (len : L.length = g.length)
    (fits : ∀ (k : Nat) t, L[k]? = some t → Fits g bs k t) :
    Versioned numberedScheme (fun t => ∃ k : Nat, L[k]? = some t ∧ g.Live k) L := by
  have find : ∀ t ∈ L, ∃ k, Fits g bs k t ∧ L[k]? = some t := by
    intro t ht
    obtain ⟨k, hk⟩ := mem_iff_getElem?.mp ht
    exact ⟨k, fits k t hk, hk⟩
  -- What an edge between two twins is good for.
  have along : ∀ {p q : Nat} {t u : Twin}, L[p]? = some t → L[q]? = some u → g.Live p →
      g.Edge p q → (∃ k : Nat, L[k]? = some u ∧ g.Live k) ∧ ∀ l ν, t.head.label = some l →
        t.final = some ν → Links numberedScheme l ν u.phis u.start := by
    intro p q t u hp hq live e
    refine ⟨⟨q, hq, live.step e⟩, fun l ν hl hν => ?_⟩
    have ft := fits p t hp
    obtain ⟨m, hm, hlabel, _⟩ := ft.node
    rw [ft.final] at hν
    cases hν
    exact (fits q u hq).links p m l live (live.step e) e hm (hlabel.trans hl)
  exact {
    functional := functional_isVersion
    heads := fun t ht => (find t ht).choose_spec.1.head
    code := fun t ht => (find t ht).choose_spec.1.code
    renamed := fun t ht => (find t ht).choose_spec.1.renamed
    proper := fun t ht _ => (find t ht).choose_spec.1.proper
    renames := fun t _ ⟨k, hk, live⟩ => (fits k t hk).renames live
    jumps := fun t _ ⟨p, hp, live⟩ i hi hbr l hl u hu hlabel => by
      obtain ⟨q, fu, hq⟩ := find u hu
      obtain ⟨n, hn, _, sub, _⟩ := (fits p t hp).node
      obtain ⟨m, hm, hml, _⟩ := fu.node
      exact along hp hq live (charted.jumps p q n m hn hm i (sub i hi) hbr l hl
        (hml.trans hlabel)).1
    falls := fun before t u behind h ⟨p, hp, live⟩ hopen => by
      have ht : L[before.length]? = some t := by simp [h]
      have hu : L[before.length + 1]? = some u := by simp [h]
      obtain ⟨n, hn, hnl, _, open'⟩ := (fits p t hp).node
      obtain ⟨m, hm, hml, _⟩ := (fits _ t ht).node
      obtain ⟨_, l, hl⟩ := (fits p t hp).head
      obtain rfl : p = before.length := inj p _ n m l hn hm (hnl.trans hl) (hml.trans hl)
      have hlt : before.length + 1 < g.length := len ▸ lt_of_getElem? hu
      exact along hp hu live (charted.falls _ n hn (open' hopen) hlt).1 }

/-- Blocks of a graph of which twins can be made. -/
structure Twinnable (g : FlowGraph) : Prop where
  heads : ∀ n ∈ g, ∃ i is l, n.block = i :: is ∧ i.op = none ∧ i.label = some l ∧ i.args = none ∧
    ∀ j ∈ is, j.label = none ∧ ∃ op, j.op = some op
  ends : ∀ n ∈ g, ∀ done i todo, n.block = done ++ i :: todo → i.isTerminator = true → todo = []
  uses : ∀ n ∈ g, ∀ i ∈ n.block, ∀ x ∈ i.uses, '.' ∉ x.toList

/-- Every block of the graph has a twin. -/
theorem exists_twin (an : AllNumbered .iterative g fronts bs) (ph : Linking.Phased g bs x)
    (ud : Undotted g) (tw : Twinnable g) (inj : DistinctLabels g)
    (fl : Linking.Flowed g bs blocks) (hn : g[k]? = some n) :
    ∃ t : Twin, Fits g bs k t ∧ n.block = t.head :: t.code ∧
      blocks[k]? = some (t.head :: (t.phis ++ t.renamed)) ∧
      t.start = (arriving g bs k).after t.phis ∧ ∀ p ∈ t.phis, p.op = some "phi" := by
  have hmem := mem_of_getElem? hn
  have hk : k < g.length := lt_of_getElem? hn
  have hkb : k < bs.length := ph.length ▸ hk
  have hb₀ := List.getElem?_eq_getElem hkb
  have hkb' : k < blocks.length := fl.length ▸ hkb
  have hb' := List.getElem?_eq_getElem hkb'
  obtain ⟨i, is, phis, is', pp⟩ := an.prepared ud hn hb₀
  obtain ⟨j, js, l, e, ho, hl, ha, items⟩ := tw.heads n hmem
  obtain ⟨rfl, rfl⟩ : i = j ∧ is = js := by simpa using pp.source.symm.trans e
  have allPhis : ∀ p ∈ phis, p.op = some "phi" := by
    intro p hp
    obtain ⟨_, _, _, _, rfl⟩ := pp.phis p hp
    rfl
  have lk := fl.linked k _ _ hb₀ hb'
  obtain ⟨phis', code', hparts, lkphis, lkcode⟩ := pp.parts ha lk
  have hcode : ∀ a ∈ is, a.label = none ∧ ∃ op, a.op = some op ∧ op ≠ "phi" := by
    intro a hmem
    obtain ⟨hla, op, hop⟩ := items a hmem
    exact ⟨hla, op, hop, fun h => pp.free a hmem (h ▸ hop)⟩
  have unlabelled : ∀ a ∈ phis' ++ code', a.label = none := by
    intro a hmem
    obtain hmem | hmem := mem_append.mp hmem
    · refine lkphis.unlabelled (fun p hp => ?_) a hmem
      obtain ⟨_, _, _, _, rfl⟩ := pp.phis p hp
      rfl
    · refine lkcode.unlabelled (fun c hc => ?_) a hmem
      obtain ⟨c₀, hc₀, v⟩ := exists_of_mem_right pp.code hc
      rw [v.others]
      exact (hcode c₀ hc₀).1
  have proper := (proper_arriving (g := g) (k := k) ph.versions).after pp.versions_phis
  have final : leaving g bs k = ((arriving g bs k).after phis).after is' := by
    have head : (arriving g bs k).after [i] = arriving g bs k := Naming.after_plain pp.head.2
    have cons : bs[k] = [i] ++ phis ++ is' := by simp [pp.target]
    rw [leaving_eq hb₀, cons, Naming.after_append, Naming.after_append, head]
  -- What linking the block in the end says, if control reaches it.
  have live : g.Live k → Renames numberedScheme ((arriving g bs k).after phis) is code'
      (some (leaving g bs k)) ∧ ∀ (p : Nat) m l, g.Live p → g.Edge p k → g[p]? = some m →
        m.label = some l →
        Links numberedScheme l (leaving g bs p) phis' ((arriving g bs k).after phis) := by
    intro live
    obtain ⟨n', tables, b₀, b, b', force, rs⟩ := fl.resolved k live
    obtain rfl : n = n' := by simpa [hn] using rs.node
    obtain rfl : bs[k] = b₀ := by simpa [hb₀] using rs.first
    obtain rfl : blocks[k] = b' := by simpa [hb'] using rs.block
    obtain ⟨phis₁, code₁, rfl, lkphis₁, lkcode₁⟩ := pp.parts ha rs.before
    obtain ⟨c, hc, link⟩ := linkBlock_head ho pp.head.2 ha rs.link
    obtain ⟨mid, phis₂, code₂, linkphis, linkcode, rfl⟩ := linkBlock_append link
    have collects := complete_phis rs.arrived allPhis lkphis₁ linkphis
    obtain ⟨rfl, rfl⟩ : phis₂ = phis' ∧ code₂ = code' := by
      have both : phis₂ ++ code₂ = phis' ++ code' := by simpa using hc.symm.trans hparts
      refine append_inj both ?_
      rw [← collects.length_eq, (lkphis.collects allPhis).length_eq]
    have holds := holds_behind_phis rs pp lkphis₁ linkphis
    rw [final]
    refine ⟨renames_code pp.code pp.free (fun a ha' => tw.uses n hmem a (by simp [e, ha']))
      (fun done a todo h => tw.ends n hmem (i :: done) a todo (by simp [e, h])) proper lkcode₁ holds
      linkcode, fun p m l livep edge hm hl => ?_⟩
    exact links_of_resolved ph inj rs pp collects livep edge hm hl
  refine ⟨⟨i, is, phis', code', (arriving g bs k).after phis, some (leaving g bs k)⟩, ?_, e, ?_, ?_,
    fun p hp => ?_⟩
  · exact {
      node := ⟨n, hn, by simp [Node.label, e], fun a ha' => by simp [e, ha'], fun hopen a ha' => by
        rw [e] at ha'
        obtain rfl | ha' := mem_cons.mp ha'
        · simp [Instr.isTerminator, ho]
        · exact hopen a ha'⟩
      head := ⟨ho, l, hl⟩
      code := hcode
      renamed := unlabelled
      proper := proper
      final := rfl
      renames := fun h => (live h).1
      links := fun p m l livep h edge hm hl => (live h).2 p m l livep edge hm hl }
  · rw [hb', hparts]
  · funext y v
    simp only [Naming.after, lkphis.lastOf_eq]
  · obtain ⟨q, hq, c⟩ := exists_of_mem_right (lkphis.collects allPhis) hp
    rw [c.others]
    exact allPhis q hq

end Ssa

end BrilKit
