import BrilKit.Proofs.FlowGraph.Settle
import BrilKit.Proofs.Run.Trimmed
import BrilKit.Proofs.Ssa.Versioning
import BrilKit.Ssa.Versions.Convert

/-!
# The conversion with numbered versions

The whole conversion of a function whose variables have no dots in their names. Main statement: a
function converted in this way runs as it did, as long as its parameters have names of their own.
-/

namespace BrilKit

open List Outcome Table

namespace Ssa

open FlowGraph Machine

/-- Functions in which versions can be numbered: no name has a dot in it, and labels are nothing but
labels. -/
structure Versionable (f : Func) : Prop where
  body : f.Labelable
  labels : ∀ i ∈ f.instrs.getD [], i.op = none → i.dest = none ∧ i.args = none
  undotted : ∀ p ∈ f.params, ∀ x, p.name = some x → '.' ∉ x.toList
  dests : ∀ i ∈ f.instrs.getD [], ∀ x, i.dest = some x → '.' ∉ x.toList
  uses : ∀ i ∈ f.instrs.getD [], ∀ x ∈ i.uses, '.' ∉ x.toList

variable {f : Func} {g : FlowGraph} {ps : List Param} {copies is : List Instr} {first i : Instr}
  {n : Node} {k : Nat} {bs blocks : List Block} {x : String}

section Graph

variable (vf : Versionable f) (ld : Labelled f g ps copies first is)
include ld

lemma distinctLabels : DistinctLabels g := fun _ _ _ _ _ => ld.distinct

include vf

lemma item_cases (hn : n ∈ g) (hi : i ∈ n.block) :
    (∃ l, i = .labelled l) ∨ (∃ p ∈ f.params, ∃ x t, p.name = some x ∧
      i = { op := some "id", args := some [x], dest := some x, type := some t }) ∨
    i ∈ f.instrs.getD [] :=
  labelledBody_items ld.built ((ld.block vf.body hn).2.2 i hi)

/-- A block behind its label. -/
lemma block_parts (hn : n ∈ g) : ∃ i is l, n.block = i :: is ∧ i.op = none ∧ i.label = some l ∧
    i.dest = none ∧ i.args = none ∧ ∀ j ∈ is, j.label = none ∧ ∃ op, j.op = some op ∧ op ≠ "phi" := by
  obtain ⟨⟨i, js, l, e, ho, hl, ops⟩, -⟩ := ld.block vf.body hn
  have plain : i.dest = none ∧ i.args = none := by
    obtain ⟨l, rfl⟩ | ⟨_, _, _, _, _, rfl⟩ | hi := item_cases vf ld hn (i := i) (by simp [e])
    · exact ⟨rfl, rfl⟩
    · cases ho
    · exact vf.labels i hi ho
  refine ⟨i, js, l, e, ho, hl, plain.1, plain.2, fun j hj => ⟨(ops j hj).2, ?_⟩⟩
  obtain ⟨op, hop⟩ := Option.isSome_iff_exists.mp (ops j hj).1
  refine ⟨op, hop, ?_⟩
  rintro rfl
  obtain ⟨l, rfl⟩ | ⟨_, _, _, _, _, rfl⟩ | hj := item_cases vf ld hn (i := j) (by simp [e, hj])
  · cases hop
  · simp at hop
  · exact vf.body.phiFree j hj hop

lemma undotted_graph : Undotted g where
  blocks m hm := by
    obtain ⟨i, is, _, e, ho, _, _, _, code⟩ := block_parts vf ld hm
    refine ⟨by simp [e], fun j hj hphi => ?_⟩
    rw [e] at hj
    obtain rfl | hj := mem_cons.mp hj
    · rw [ho] at hphi
      cases hphi
    · obtain ⟨_, op, hop, hne⟩ := code j hj
      exact hne (Option.some.inj (hop.symm.trans hphi))
  labels m hm := by
    obtain ⟨i, is, _, e, ho, _, hd, _, _⟩ := block_parts vf ld hm
    exact ⟨i, is, e, ho, hd⟩
  dests m hm j hj x hx := by
    obtain ⟨l, rfl⟩ | ⟨p, hp, y, t, hy, rfl⟩ | hj := item_cases vf ld hm hj
    · cases hx
    · cases hx
      exact vf.undotted p hp x hy
    · exact vf.dests j hj x hx

lemma twinnable_graph : Twinnable g where
  heads m hm := by
    obtain ⟨i, is, l, e, ho, hl, _, ha, code⟩ := block_parts vf ld hm
    exact ⟨i, is, l, e, ho, hl, ha, fun j hj => ⟨(code j hj).1, (code j hj).2.imp fun _ => And.left⟩⟩
  ends m hm := (ld.block vf.body hm).2.1
  uses m hm j hj x hx := by
    obtain ⟨l, rfl⟩ | ⟨p, hp, y, t, hy, rfl⟩ | hj := item_cases vf ld hm hj
    · simp [Instr.labelled, Instr.uses] at hx
    · obtain rfl : x = y := by simpa [Instr.uses] using hx
      exact vf.undotted p hp x hy
    · exact vf.uses j hj x hx

end Graph

section First

variable {ν : Naming} {cs is' code' : Block}

def CopiesParam (i : Instr) : Prop :=
  ∃ x d, i.op = some "id" ∧ i.args = some [x] ∧ i.dest = some d ∧ IsVersion x d

/-- Copies of distinct parameters are linked to nothing: before them no parameter has a version. -/
lemma copiesParam_of_linked (hv : Forall₂ VersionsResult cs is')
    (copy : ∀ c ∈ cs, ∃ x, c.op = some "id" ∧ c.args = some [x] ∧ c.dest = some x)
    (nd : (cs.map Instr.dest).Nodup) (lack : ∀ c ∈ cs, ∀ x, c.dest = some x → ν.Lacks x)
    (lk : Linked g bs k ν is' code') : ∀ c ∈ code', CopiesParam c := by
  induction hv generalizing ν code' with
  | nil =>
    cases lk
    simp
  | @cons c c' cs cs' v _ ih =>
    obtain ⟨x, ho, ha, hd⟩ := copy c (by simp)
    obtain ⟨hnew, nd⟩ := nodup_cons.mp nd
    obtain ⟨hno, _⟩ | ⟨y, m, hy, hdy, hd'⟩ := v.dest
    · rw [hd] at hno
      cases hno
    rw [hd] at hdy
    cases hdy
    have ho' : c'.op = some "id" := by rw [v.others, ho]
    cases lk with
    | phi hphi _ _ => exact absurd (ho'.symm.trans hphi) (by simp)
    | @use _ _ e _ code' _ l lk =>
      have rest := ih (fun a ha => copy a (by simp [ha])) nd (fun a hmem z hz => ?_) lk
      · intro a hmem
        obtain rfl | hmem := mem_cons.mp hmem
        · -- The parameter has no version yet, so the copy reads the parameter.
          have huses : c'.uses = [x] := by rw [v.others, Instr.uses, ha]; rfl
          have hl := l.uses
          rw [huses] at hl
          have hargs : a.args = some [x] := by
            cases hargs : a.args with
            | none =>
              rw [Instr.uses, hargs] at hl
              cases hl
            | some xs =>
              rw [Instr.uses, hargs] at hl
              obtain ⟨x', _, hx', hnil, e⟩ := forall₂_cons_left_iff.mp hl
              obtain rfl := forall₂_nil_left_iff.mp hnil
              obtain rfl | hx' := hx'
              · simpa using e
              · exact absurd hx' (lack c (by simp) x hd x')
          refine ⟨x, versionOf x m, ?_, hargs, ?_, hy, m, rfl⟩
          · rw [l.others, ho']
          · rw [l.others, hd']
        · exact rest a hmem
      · intro o ho
        rw [Naming.after_assign hd', variableOf_versionOf hy] at ho
        have hne : z ≠ x := by
          rintro rfl
          exact hnew (mem_map.mpr ⟨a, hmem, by rw [hd, hz]⟩)
        exact lack a (by simp [hmem]) z hz o ((Naming.set_other hne).mp ho)

def noteCopy (t : Versions) (i : Instr) : Outcome Versions :=
  match i.op with
  | none => .ok t
  | some op => do
    Outcome.guard (op == "id") (.violated "")
    let x ← itemAt (← i.getArgs) 0
    return t.put x (← i.getDest)

lemma paramVersions_eq {b : Block} : paramVersions b = b.foldlM noteCopy .empty := rfl

lemma get?_foldlM_noteCopy {t t' : Versions} {b : Block} (copy : ∀ c ∈ b, CopiesParam c)
    (h : b.foldlM noteCopy t = .ok t') (x : String) :
    t'.get? x = (lastOf x b).or (t.get? x) := by
  induction b generalizing t with
  | nil =>
    cases h
    simp [lastOf]
  | cons c b ih =>
    obtain ⟨y, d, ho, ha, hd, ver⟩ := copy c (by simp)
    obtain ⟨u, hu, h⟩ := foldlM_cons_eq_ok.mp h
    have e : u = t.put y d := by
      simp only [noteCopy, ho, Instr.getArgs, ha, Instr.getDest, hd] at hu
      cases hu
      rfl
    rw [ih (fun a ha => copy a (by simp [ha])) h, e, lastOf, hd]
    by_cases hx : x = y
    · simp [hx, ver.variableOf, Option.filter]
    · have hne : variableOf d ≠ x := fun h => hx (h.symm.trans ver.variableOf)
      simp [get?_put_other hx, Option.filter, hne]

end First

section Params

variable {V : Type} {R : Naming} {ps' : List Param} {versions : Versions}

def RenamesParam (R : Naming) (p p' : Param) : Prop :=
  ∃ x d, p.name = some x ∧ p'.name = some d ∧ R x d

/-- A version that stands for a parameter has its argument. -/
lemma bindParams_renamed (fn : Functional R) (inj : ∀ x d d', R x d → R x d' → d = d')
    (h : Forall₂ (RenamesParam R) ps ps') (vs : List V) {x d : String} (hx : R x d) :
    bindParams ps' vs d = bindParams ps vs x := by
  have all : ∀ bindOne : Env V → Param × V → Env V,
      (∀ e p v y, p.name = some y → bindOne e (p, v) = e.set y (some v)) →
      ∀ {ps ps' : List Param}, Forall₂ (RenamesParam R) ps ps' → ∀ (vs : List V)
        (e e' : Env V), e' d = e x →
        (ps'.zip vs).foldl bindOne e' d = (ps.zip vs).foldl bindOne e x := by
    intro bindOne hbind ps ps' h
    induction h with
    | nil => exact fun _ _ _ he => he
    | @cons p p' ps ps' hp _ ih =>
      intro vs e e' he
      cases vs with
      | nil => exact he
      | cons v vs =>
        obtain ⟨y, c, hy, hc, hyc⟩ := hp
        simp only [zip_cons_cons, foldl_cons]
        refine ih vs _ _ ?_
        rw [hbind e p v y hy, hbind e' p' v c hc]
        by_cases hxy : x = y
        · subst hxy
          rw [inj x d c hx hyc, Env.set_same, Env.set_same]
        · have hdc : d ≠ c := by
            rintro rfl
            exact hxy (fn x y d hx hyc)
          rw [Env.set_other hxy, Env.set_other hdc, he]
  exact all _ (fun e p v y hy => by simp [hy]) h vs _ _ rfl

lemma agree_renamed (inj : ∀ x d d', R x d → R x d' → d = d') (pr : R.Proper IsVersion)
    (h : Forall₂ (RenamesParam R) ps ps') (vs : List V) :
    Agree IsVersion R (bindParams ps vs) (bindParams ps' vs) := by
  have fn : Functional R := fun x y d hx hy => functional_isVersion x y d (pr x d hx) (pr y d hy)
  have named : ∀ x d, R x d → bindParams ps' vs d = bindParams ps vs x := fun x d hx =>
    bindParams_renamed fn inj h vs hx
  exact {
    named := named
    unnamed := fun x lack => bindParams_eq_none vs fun p hp hx => by
      obtain ⟨p', _, y, d, hy, _, hyd⟩ := exists_of_mem_right h.flip hp
      rw [hx] at hy
      cases hy
      exact lack d hyd
    absent := fun x d ver he => by
      by_cases hp : ∃ p' ∈ ps', p'.name = some d
      · obtain ⟨p', hp', hd⟩ := hp
        obtain ⟨p, _, y, c, _, hc, hyc⟩ := exists_of_mem_right h hp'
        rw [hd] at hc
        cases hc
        obtain rfl := functional_isVersion x y d ver (pr y d hyc)
        rw [named x d hyc, he]
      · exact bindParams_eq_none vs fun p' hp' hd => hp ⟨p', hp', hd⟩
    unset := fun d hd => bindParams_eq_none vs fun p' hp' hname => by
      obtain ⟨p, _, y, c, _, hc, hyc⟩ := exists_of_mem_right h hp'
      rw [hname] at hc
      cases hc
      exact hd y (pr y d hyc) }

lemma renameParam_eq_ok {p p' : Param} (h : renameParam versions p = .ok p') :
    ∃ x d, p.name = some x ∧ p'.name = some d ∧ versions.get? x = some d := by
  obtain ⟨x, hx, h⟩ := of_bind h
  obtain ⟨d, hd, h⟩ := of_bind h
  rw [Param.getName, ofOption_eq_ok] at hx
  cases h
  exact ⟨x, d, hx, rfl, fetch_eq_ok.mp hd⟩

end Params

section Root

variable {s : DomState}

lemma lacks_arriving_root (w : Rooted g) : (arriving g bs 0).Lacks x := by
  have noEdge : ∀ p, g.Live p → ¬ g.Edge p 0 := by
    intro p live e
    obtain ⟨m, hm, hp⟩ := w.listed live e
    rw [w.root m hm] at hp
    simp at hp
  rintro d ⟨p, b, _, _, way⟩
  generalize hk : 0 = k at way
  cases way with
  | edge live e => exact noEdge p live (hk ▸ e)
  | @step q _ way _ e => exact noEdge q way.live (hk ▸ e)

lemma not_hasPhi_root (an : AllNumbered .iterative g (frontier s) bs) (w : Rooted g) (st : Settled g s)
    (hn : g[0]? = some n) : ¬ HasPhi bs x 0 := by
  intro h
  obtain ⟨d, hd⟩ := (an.phis x 0 h).2.1
  obtain ⟨sets, out, hsets, _, ⟨set, hset, _⟩, _⟩ := mem_frontier.mp hd
  have size := st.perEdge 0 sets n hsets hn
  rw [w.root n hn, length_nil, length_eq_zero_iff] at size
  simp [size] at hset

/-- What becomes of the first block: the copies of the parameters make their first versions. -/
lemma first_block (vf : Versionable f) (params : (f.params.map Param.name).Nodup)
    (ld : Labelled f g ps copies first is)
    (an : AllNumbered .iterative g (frontier s) bs) (w : Rooted g) (st : Settled g s)
    (fl : Linking.Flowed g bs blocks) (hn : g[0]? = some n)
    (hblock : n.block = .labelled "dummy_entry" :: copies.reverse) :
    ∃ code', blocks[0]? = some (.labelled "dummy_entry" :: code') ∧ (∀ c ∈ code', CopiesParam c) ∧
      ∀ x d, leaving g bs 0 x d ↔ lastOf x code' = some d := by
  have ud := undotted_graph vf ld
  have len : bs.length = g.length := by simpa [FlowGraph.blocks] using an.numbered.length
  have h0 : 0 < bs.length := len ▸ lt_of_getElem? hn
  have h0' : 0 < blocks.length := fl.length ▸ h0
  have hb := getElem?_eq_getElem h0
  have hb' := getElem?_eq_getElem h0'
  obtain ⟨i, js, phis, js', pp⟩ := an.prepared ud hn hb
  obtain ⟨rfl, rfl⟩ : Instr.labelled "dummy_entry" = i ∧ copies.reverse = js := by
    simpa using hblock.symm.trans pp.source
  have noPhis : phis = [] := by
    refine eq_nil_iff_forall_not_mem.mpr fun p hp => ?_
    obtain ⟨y, m, t, hy, rfl⟩ := pp.phis p hp
    refine not_hasPhi_root (x := y) an w st hn ⟨_, hb, ?_⟩
    rw [pp.phiVars_eq]
    exact mem_filterMap.mpr ⟨_, hp, by simp [emptyPhi, Instr.hasOp, variableOf_versionOf hy]⟩
  subst noPhis
  obtain ⟨phis', code', hparts, lkphis, lkcode⟩ := pp.parts rfl (fl.linked 0 _ _ hb hb')
  cases lkphis
  have lack : ∀ y, (arriving g bs 0).Lacks y := fun y => lacks_arriving_root w
  have copyForm : ∀ c ∈ copies.reverse, ∃ x, c.op = some "id" ∧ c.args = some [x] ∧
      c.dest = some x := by
    intro c hc
    obtain ⟨_, _, x, t, _, rfl⟩ := mem_copies ld.copied (mem_reverse.mp hc)
    exact ⟨x, rfl, rfl, rfl⟩
  have nd : (copies.reverse.map Instr.dest).Nodup := by
    have hps : f.params = ps := by simp [Func.params, ld.args]
    rw [map_reverse, nodup_reverse, map_dest_copies ld.copied, ← hps]
    exact params
  refine ⟨code', by rw [hb', hparts, nil_append],
    copiesParam_of_linked pp.code copyForm nd (fun _ _ y _ => lack y) lkcode, fun y d => ?_⟩
  have last : lastOf y bs[0] = lastOf y code' := by
    rw [lkcode.lastOf_eq, pp.lastOf_eq]
    simp [lastOf]
  rw [leaving_eq hb]
  cases hl : lastOf y code' with
  | some c =>
    rw [Naming.after_of_lastOf (last.trans hl)]
    simp [eq_comm]
  | none =>
    rw [Naming.after_of_none (last.trans hl)]
    simpa using lack y d

end Root

lemma exists_list {α : Type} {P : Nat → α → Prop} {N : Nat} (h : ∀ k < N, ∃ a, P k a) :
    ∃ L : List α, L.length = N ∧ ∀ (k : Nat) a, L[k]? = some a → P k a := by
  choose f hf using h
  refine ⟨List.ofFn fun k : Fin N => f k k.2, by simp, fun k a ha => ?_⟩
  obtain ⟨hk, rfl⟩ := List.getElem?_eq_some_iff.mp ha
  rw [List.getElem_ofFn]
  exact hf k _

lemma map_eq_of_getElem? {α β : Type} {F : α → β} {L : List α} {M : List β}
    (len : L.length = M.length) (h : ∀ (k : Nat) a, L[k]? = some a → M[k]? = some (F a)) :
    L.map F = M := by
  refine ext_getElem? fun k => ?_
  rw [getElem?_map]
  cases ha : L[k]? with
  | some a => rw [h k a ha, Option.map_some]
  | none =>
    rw [getElem?_eq_none_iff, len] at ha
    rw [Option.map_none, getElem?_eq_none ha]

section Run

variable {s : DomState} {V W : Type}

/-- The twin of the block of copies once it is emptied: the parameters have their versions already. -/
def emptied (head : Instr) (ν : Naming) : Twin := ⟨head, [], [], [], ν, some ν⟩

/-- The emptied twin fits the first node, which no edge enters. -/
lemma fits_emptied {t : Twin} (ld : Labelled f g ps copies first is) (w : Rooted g)
    (ph : Linking.Phased g bs x) (ft : Fits g bs 0 t) (hhead : t.head = .labelled "dummy_entry") :
    Fits g bs 0 (emptied (.labelled "dummy_entry") (leaving g bs 0)) := by
  obtain ⟨m, hm, hl, _, _⟩ := ft.node
  refine {
    node := ⟨m, hm, hhead ▸ hl, by simp [emptied], fun _ i hi => ?_⟩
    head := ⟨rfl, _, rfl⟩
    code := by simp [emptied]
    renamed := by simp [emptied]
    proper := proper_leaving ph.versions
    final := rfl
    renames := fun _ => .nil
    links := fun p _ _ live _ e _ _ => ?_ }
  · have hblock : g.blocks[0]? = some m.block := by simp [FlowGraph.blocks, hm]
    rw [ld.blocks, getElem?_cons_zero] at hblock
    rw [← Option.some.inj hblock] at hi
    obtain rfl | hi := mem_cons.mp hi
    · simp [Instr.isTerminator, Instr.labelled]
    · obtain ⟨_, _, x, t, _, rfl⟩ := mem_copies ld.copied (mem_reverse.mp hi)
      simp [Instr.isTerminator, terminators]
  · obtain ⟨m', hm', hp⟩ := w.listed live e
    simp [w.root m' hm'] at hp

/-- The blocks of the graph, the copies apart, run as the linked blocks do. -/
lemma follows_linked {M : Meaning V W} {u v : State V W} (vf : Versionable f)
    (ld : Labelled f g ps copies first is) (an : AllNumbered .iterative g (frontier s) bs)
    (ph : Linking.Phased g bs x) (w : Rooted g) (fl : Linking.Flowed g bs blocks)
    (hu : u.rest = .labelled "dummy_entry" :: trimmed true (withLabel first is))
    (hv : v.rest = (blocks.set 0 [.labelled "dummy_entry"]).flatten)
    (ag : Agree IsVersion (leaving g bs 0) u.env v.env) (hw : u.world = v.world) :
    Follows M (.labelled "dummy_entry" :: trimmed true (withLabel first is))
      (blocks.set 0 [.labelled "dummy_entry"]).flatten (fun _ => False) [] u v := by
  have ud := undotted_graph vf ld
  have tw := twinnable_graph vf ld
  have inj := distinctLabels ld
  have twins : ∀ k < g.length, ∃ t : Twin, Fits g bs k t ∧
      g.blocks[k]? = some (t.head :: t.code) ∧
      blocks[k]? = some (t.head :: (t.phis ++ t.renamed)) := by
    intro k hk
    have hn := getElem?_eq_getElem hk
    obtain ⟨t, fits, e, e', _⟩ := exists_twin an ph ud tw inj fl hn
    exact ⟨t, fits, by simp [FlowGraph.blocks, hn, e], e'⟩
  obtain ⟨L, len, hL⟩ := exists_list twins
  have size : blocks.length = g.length := by rw [fl.length, ph.length]
  have sources : L.map (fun t => t.head :: t.code) = g.blocks :=
    map_eq_of_getElem? (by simp [FlowGraph.blocks, len]) fun k t ht => (hL k t ht).2.1
  have targets : L.map (fun t => t.head :: (t.phis ++ t.renamed)) = blocks :=
    map_eq_of_getElem? (len.trans size.symm) fun k t ht => (hL k t ht).2.2
  rw [ld.blocks] at sources
  cases L with
  | nil => simp at sources
  | cons t rest =>
    rw [map_cons] at sources targets
    obtain ⟨hhead, hrest⟩ := List.cons.inj sources
    have hhead : t.head = .labelled "dummy_entry" := (List.cons.inj hhead).1
    -- The first twin is emptied; the others are as they were.
    have fits : ∀ (k : Nat) u,
        (emptied (.labelled "dummy_entry") (leaving g bs 0) :: rest)[k]? = some u →
        Fits g bs k u := by
      intro k u hu
      cases k with
      | succ k => exact (hL (k + 1) u hu).1
      | zero =>
        cases hu
        exact fits_emptied ld w ph (hL 0 t rfl).1 hhead
    have versioned := versioned_of_fits (ld.charted vf.body) inj (by simpa using len) fits
    have hsource : source (emptied (.labelled "dummy_entry") (leaving g bs 0) :: rest) =
        .labelled "dummy_entry" :: trimmed true (withLabel first is) := by
      simp [source, emptied, flatMap_def, hrest, Block.flatten_split]
    have htarget : target (emptied (.labelled "dummy_entry") (leaving g bs 0) :: rest) =
        (blocks.set 0 [.labelled "dummy_entry"]).flatten := by
      rw [← targets]
      simp [target, emptied, flatMap_def]
    rw [← hsource] at hu ⊢
    rw [← htarget] at hv ⊢
    have run := versioned.follows (M := M) ⟨0, rfl, .root⟩ rfl ag (fun h => h.elim) hw hu hv
    refine fun n => .inl (run.exact ?_ n)
    rintro u ⟨_, _, _, h⟩
    exact h

end Run

/-- The last step of the conversion: the parameters take the names of their first versions, and the
block of copies is emptied. -/
lemma finish_eq_ok {f' : Func} {code' : Block} (hn : g[0]? = some n)
    (hl : n.label = some "dummy_entry") (hargs : f.args = some ps)
    (hfirst : blocks[0]? = some (.labelled "dummy_entry" :: code'))
    (copy : ∀ c ∈ code', CopiesParam c) (h : finish f g blocks = .ok f') :
    ∃ ps', Forall₂ (RenamesParam fun x d => lastOf x code' = some d) ps ps' ∧
      f' = { f with args := some ps',
                    instrs := some (blocks.set 0 [.labelled "dummy_entry"]).flatten } := by
  have hcopy : isCopyBlock g = .ok true := by
    have hhead : g.head? = some n := by rw [head?_eq_getElem?, hn]
    have split : "dummy_entry".splitOn "dummy_entry" = ["", ""] := by cbv
    simp [isCopyBlock, hhead, hl, split]
  unfold finish at h
  obtain ⟨isCopy, hcopy', h⟩ := of_bind h
  cases hcopy.symm.trans hcopy'
  obtain ⟨b, hb, h⟩ := of_bind h
  rw [itemAt_eq_ok, hfirst] at hb
  cases hb
  obtain ⟨versions, hversions, h⟩ := of_bind h
  obtain ⟨o, ho, h⟩ := of_bind h
  rw [Func.paramList?, hargs] at ho
  cases ho
  obtain ⟨qs, hqs, h⟩ := of_bind h
  rw [ofOption_eq_ok] at hqs
  cases hqs
  obtain ⟨ps', hps', h⟩ := of_bind h
  have kept : (Instr.labelled "dummy_entry" :: code').filter (fun i => !i.isOp && i.setsLabel) =
      [.labelled "dummy_entry"] := by
    rw [filter_cons_of_pos rfl, filter_eq_nil_iff.mpr]
    intro c hc
    obtain ⟨_, _, ho, _⟩ := copy c hc
    simp [Instr.isOp, ho]
  rw [kept, hargs] at h
  cases h
  refine ⟨ps', (mapM_eq_ok.mp hps').imp fun p p' hp => ?_, rfl⟩
  obtain ⟨x, d, hx, hd, hget⟩ := renameParam_eq_ok hp
  rw [paramVersions_eq] at hversions
  obtain ⟨t, ht, hversions⟩ := foldlM_cons_eq_ok.mp hversions
  cases ht
  rw [get?_foldlM_noteCopy copy hversions, get?_empty, Option.or_none] at hget
  exact ⟨x, d, hx, hd, hget⟩

/-- The stages of a conversion: the graph, its blocks with numbered versions, the blocks linked. -/
structure Stages (f f' : Func) (g : FlowGraph) (s : DomState) (bs blocks : List Block)
    (ps : List Param) (copies : List Instr) (first : Instr) (is : List Instr) : Prop where
  graph : f.labelledGraph .looping true = .ok g
  labelled : Labelled f g ps copies first is
  rooted : Rooted g
  settled : Settled g s
  numbered : AllNumbered .iterative g (frontier s) bs
  root : ∃ n, g[0]? = some n ∧ n.block = .labelled "dummy_entry" :: copies.reverse
  phased : ∃ x, Linking.Phased g bs x
  flowed : Linking.Flowed g bs blocks
  finished : finish f g blocks = .ok f'

lemma exists_stages {f' : Func} {order : SiteOrder} (vf : Versionable f)
    (h : convertBy order .iterative f = .ok f') :
    ∃ g s bs blocks ps copies first is, Stages f f' g s bs blocks ps copies first is := by
  obtain ⟨g, hg, h⟩ := of_bind h
  obtain ⟨bs, hbs, h⟩ := of_bind h
  obtain ⟨blocks, hblocks, h⟩ := of_bind h
  obtain ⟨ps, copies, first, is, ld⟩ := labelledGraph_spec vf.body rfl hg
  have ud := undotted_graph vf ld
  obtain ⟨s, hs, _⟩ := of_bind hbs
  have w : Rooted g := ⟨fun _ e => (ld.edges vf.body).mpr e, fun _ => ld.root vf.body⟩
  have un : ∀ b ∈ g.blocks, Unnumbered b := by
    intro b hb
    obtain ⟨n, hn, rfl⟩ := mem_map.mp hb
    exact ud.blocks n hn
  have an : AllNumbered .iterative g (frontier s) bs := number_spec un ud.dests hs hbs
  -- The first block copies the parameters, of which there is one at least.
  obtain ⟨n, hn, hblock⟩ : ∃ n, g[0]? = some n ∧
      n.block = .labelled "dummy_entry" :: copies.reverse := by
    have e : g.blocks[0]? = some (.labelled "dummy_entry" :: copies.reverse) := by simp [ld.blocks]
    rw [FlowGraph.blocks, getElem?_map, Option.map_eq_some_iff] at e
    exact e
  have st := settle_spec (ld.edges vf.body) (lt_of_getElem? hn) hs
  obtain ⟨c, x, hc, hx⟩ : ∃ c x, c ∈ n.block ∧ c.dest = some x := by
    have hps : f.params = ps := by simp [Func.params, ld.args]
    obtain ⟨c, hc⟩ := exists_mem_of_ne_nil copies fun hnil => vf.body.params (by
      rw [hps, ← map_eq_nil_iff (f := Param.name), ← map_dest_copies ld.copied, hnil]
      rfl)
    obtain ⟨_, _, x, t, _, e⟩ := mem_copies ld.copied hc
    exact ⟨c, x, by simp [hblock, hc], by rw [e]⟩
  have ph := an.phased ud w st hn hc hx
  have fl : Linking.Flowed g bs blocks := by
    obtain ⟨l, hlinks, hblocks⟩ := of_bind hblocks
    cases hblocks
    refine Linking.settleLinks_spec ph (fun b hb => ?_) hlinks
    obtain ⟨k, hk⟩ := List.mem_iff_getElem?.mp hb
    have hkg : k < g.length := ph.length ▸ lt_of_getElem? hk
    obtain ⟨_, _, _, _, pp⟩ := an.prepared ud (getElem?_eq_getElem hkg) hk
    exact pp.fresh
  exact ⟨g, s, bs, blocks, ps, copies, first, is, hg, ld, w, st, an, ⟨n, hn, hblock⟩, ⟨x, ph⟩,
    fl, h⟩

/-- Versions and their phis begin no speculation. -/
lemma Stages.unspeculative {f' : Func} {s : DomState}
    (sg : Stages f f' g s bs blocks ps copies first is)
    (vf : Versionable f) (none : Unspeculative (f.instrs.getD [])) :
    Unspeculative (blocks.set 0 [.labelled "dummy_entry"]).flatten := by
  intro j hj
  obtain ⟨b', hmem, hj⟩ := mem_flatten.mp hj
  obtain hmem | rfl := mem_or_eq_of_mem_set hmem
  · obtain ⟨k, hb'⟩ := List.mem_iff_getElem?.mp hmem
    have hb := getElem?_eq_getElem (sg.flowed.length ▸ lt_of_getElem? hb')
    obtain ⟨x, ph⟩ := sg.phased
    have hn := getElem?_eq_getElem (ph.length ▸ lt_of_getElem? hb)
    obtain ⟨i, hi, op, _⟩ := (sg.flowed.linked k _ _ hb hb').exists_item hj
    obtain ⟨head, js, phis, js', pp⟩ := sg.numbered.prepared (undotted_graph vf sg.labelled) hn hb
    rw [pp.target, mem_cons, mem_append] at hi
    obtain rfl | hi | hi := hi
    · simp [Instr.speculates, op, pp.head.1]
    · obtain ⟨y, m, t, _, rfl⟩ := pp.phis i hi
      simp [Instr.speculates, op, emptyPhi]
    · obtain ⟨i₀, hi₀, vr⟩ := exists_of_mem_right pp.code hi
      have mem := (sg.labelled.block vf.body (mem_of_getElem? hn)).2.2 i₀ (by simp [pp.source, hi₀])
      have same : j.speculates = i₀.speculates := by
        rw [Instr.speculates, op, vr.others, Instr.speculates]
      obtain ⟨l, rfl⟩ | ⟨_, _, y, t, _, rfl⟩ | mem := labelledBody_items sg.labelled.built mem
      · exact same
      · exact same
      · exact same.trans (none i₀ mem)
  · obtain rfl := mem_singleton.mp hj
    rfl

lemma versionable_countdown : Versionable .countdown where
  body := {
    items := by decide
    phiFree := by decide
    distinct := fun is h => by
      cases h
      decide
    targets := by simp [Func.countdown, Instr.labelled, Instr.jump]
    params := by simp [Func.countdown, Func.params] }
  labels := by decide
  undotted := by simp [Func.countdown, Func.params]
  dests := by simp [Func.countdown, Instr.labelled, Instr.jump]
  uses := by simp [Func.countdown, Instr.labelled, Instr.jump, Instr.uses]

def hidingParam : Func where
  name := some "main"
  args := some [Sample.wholeParam "x", Sample.wholeParam "x"]
  instrs := some [Sample.effect "print" ["x"]]

lemma versionable_hidingParam : Versionable hidingParam where
  body := {
    items := by decide
    phiFree := by decide
    distinct := fun is h => by
      cases h
      decide
    targets := by simp [hidingParam]
    params := by simp [hidingParam, Func.params] }
  labels := by decide
  undotted := by simp [hidingParam, Func.params]
  dests := by simp [hidingParam]
  uses := by simp [hidingParam, Instr.uses]

lemma versionable_guessing : Versionable .guessing where
  body := {
    items := by decide
    phiFree := by decide
    distinct := fun is h => by
      cases h
      decide
    targets := by simp [Func.guessing, Func.guess, Instr.labelled]
    params := by simp [Func.guessing, Func.params] }
  labels := by decide
  undotted := by simp [Func.guessing, Func.params]
  dests := by simp [Func.guessing, Func.guess, Instr.labelled]
  uses := by simp [Func.guessing, Func.guess, Instr.labelled, Instr.uses]

end Ssa

end BrilKit
