import BrilKit.Proofs.Ssa.Conversion
import BrilKit.Proofs.Ssa.Twin
import Mathlib

/-!
# Single-assignment form keeps the meaning

Main statement: a function in single-assignment form goes over the same labels, prints the same,
makes the same calls with the same arguments and ends in the same way as the function that it was
made from, whatever the operations mean.
-/

namespace BrilKit

open List Table

namespace Ssa

open Machine Renaming

/-- A function whose body is workable and whose parameters are not named like a version or like the
operand for a path without a value. -/
structure Convertible (f : Func) : Prop where
  body : Workable (f.instrs.getD [])
  defined : ∀ p ∈ f.params, p.name ≠ some undefinedName
  unversioned : ∀ p ∈ f.params, ∀ i ∈ f.instrs.getD [], ∀ d, i.dest = some d →
    ∀ k, p.name ≠ some (versionOf d k)

namespace Conversion

variable {f : Func} (c : Conversion f)

section Names

variable (cv : Convertible f)
include cv

lemma functional_version : Functional c.Version := by
  have clash : ∀ x n, c.Assigned x → n ∈ c.args → ∀ k, n ≠ versionOf x k := by
    rintro x n ⟨i, hi, hx⟩ hn k rfl
    have hmem : some (versionOf x k) ∈ f.params.map Param.name := by
      rw [c.map_name_params]
      exact mem_map_of_mem hn
    obtain ⟨p, hp, hname⟩ := mem_map.mp hmem
    exact cv.unversioned p hp i (c.body_getD ▸ hi) x hx k hname
  rintro x y n (⟨hx, k, rfl⟩ | ⟨rfl, hx⟩) (⟨hy, j, e⟩ | ⟨e, hy⟩)
  · exact (versionOf_inj e).1
  · exact absurd e.symm (clash x y hx hy k)
  · exact absurd e (clash y n hy hx j)
  · exact e

lemma not_version_undefined (x : String) : ¬ c.Version x undefinedName := by
  rintro (⟨_, k, e⟩ | ⟨rfl, hx⟩)
  · exact ne_versionOf (by decide) e
  · have hmem : some undefinedName ∈ f.params.map Param.name := by
      rw [c.map_name_params]
      exact mem_map_of_mem hx
    obtain ⟨p, hp, hname⟩ := mem_map.mp hmem
    exact cv.defined p hp hname

lemma reads_handed (t : Table String (List String)) (x : String) :
    Reads c.Version (inForceBy t) x (handed t x) := by
  unfold Reads Naming.Lacks inForceBy handed
  cases h : t.getD x [] with
  | nil => exact .inr ⟨by simp, c.not_version_undefined cv⟩
  | cons n ns => exact .inl rfl

end Names

section Visits

variable {vs : List Visit} (wk : Workable c.body) (w : c.Visits vs)
  {u : Visit} {n : String}
include wk w

/-- The versions in force in a live block are versions. -/
lemma proper_visit (hu : u ∈ vs) (hlive : c.Live u.block) :
    (inForceBy u.start).Proper c.Version ∧ (inForceBy u.final).Proper c.Version := by
  -- By induction along the tree: from the versions on arrival to those at the end.
  have onward : ∀ {u : Visit}, u ∈ vs → c.Live u.block → (inForceBy u.before).Proper c.Version →
      (inForceBy u.start).Proper c.Version ∧ (inForceBy u.final).Proper c.Version := by
    intro u hu hlive hb
    obtain ⟨v, hv, on⟩ := c.exists_visit (c.entryFree wk) w hlive
    obtain rfl := c.visit_unique (c.entryFree wk) w hv hu on.block hlive
    have hstart : (inForceBy v.start).Proper c.Version := by
      intro x m hm
      by_cases hx : x ∈ c.phis.getD v.block []
      · obtain ⟨k, hk, _⟩ := on.merged x hx
        unfold inForceBy at hm
        rw [hk] at hm
        cases hm
        exact .inl ⟨(c.phi_sound (c.entryFree wk) hx).1, k, rfl⟩
      · unfold inForceBy at hm
        rw [on.carried x hx] at hm
        exact hb x m hm
    refine ⟨hstart, ?_⟩
    obtain ⟨s₁, s₂, h₁, h₂, hi⟩ := on.instrs
    rw [← h₁] at hstart
    rw [← h₂]
    exact instrs_proper (σ := ⟨c.Version, False, fun _ => False⟩)
      (fun x k hx => .inl ⟨hx, k, rfl⟩) hi ((c.block_items wk on.found).2.2.2) hstart
  induction w.rooted u hu with
  | @root u hu _ hb =>
    refine onward hu hlive fun x m hm => ?_
    rw [hb, inForceBy_start] at hm
    exact .inr ⟨hm.2, hm.1⟩
  | @child p u hp hu hc hb ih =>
    have hpl : c.Live p.block := (c.computed (c.entryFree wk)).reach_of_child c.nodup_succ c.tree_eq hc
    refine onward hu hlive ?_
    rw [hb]
    exact (ih hp.mem hpl).2

omit w in
/-- A live block is renamed along the versions in force, whatever becomes of its terminator. -/
lemma renames_visit {σ : Scheme} (hσ : ∀ x k, c.Assigned x → σ.Version x (versionOf x k))
    (on : Walk.Once c.phis c.start c.state n u) :
    ∃ is last is' last' ν, u.code = is ++ [last] ∧ last.isTerminator = true ∧
      u.renamed = is' ++ [last'] ∧ RenamesInstr σ ν last last' (inForceBy u.final) ∧
      ∀ tail final, Renames σ ν [last] tail final →
        Renames σ (inForceBy u.start) u.code (is' ++ tail) final := by
  obtain ⟨_, ended, ends, assigned⟩ := c.block_items wk on.found
  obtain ⟨s₁, s₂, h₁, h₂, hi⟩ := on.instrs
  obtain ⟨is, last, hcode, hlast, straight⟩ := Block.exists_last ended ends
  rw [hcode] at hi assigned
  obtain ⟨is', last', ν, hrenamed, hr, all⟩ := instrs_renames hσ hi assigned straight
  rw [← h₁, ← h₂, hcode]
  exact ⟨is, last, is', last', ν, rfl, hlast, hrenamed, hr, all⟩

end Visits

/-- The versions that a visit finds or leaves, if there is a visit. -/
def versionsBy (vs : List Visit) (g : Visit → Table String (List String)) (n : String) : Naming :=
  ((vs.find? fun u => u.block == n).map fun u => inForceBy (g u)).getD fun _ _ => False

/-- What becomes of the blocks: what stands for their phis and their code, and the versions in force
at their ends if control can get there. -/
structure Form where
  phis : String → Block
  renamed : String → Block
  final : String → Option Naming

def twin (vs : List Visit) (fm : Form) (e : String × Block) : Twin where
  head := .labelled e.1
  code := e.2
  phis := fm.phis e.1
  renamed := fm.renamed e.1
  start := versionsBy vs Visit.start e.1
  final := fm.final e.1

/-- A form that fits the versions that the visits find. -/
structure Fits (σ : Scheme) (vs : List Visit) (fm : Form) : Prop where
  version : σ.Version = c.Version
  unlabelled : ∀ n ∈ c.blocks.keys, ∀ i ∈ fm.phis n ++ fm.renamed n, i.label = none
  renames : ∀ u ∈ vs, c.Live u.block → Walk.Once c.phis c.start c.state u.block u →
    Renames σ (inForceBy u.start) u.code (fm.renamed u.block) (fm.final u.block)
  links : ∀ u ∈ vs, ∀ v ∈ vs, c.Live u.block → c.succ.Edge u.block v.block →
    ∀ ν, fm.final u.block = some ν → Links σ u.block ν (fm.phis v.block) (inForceBy v.start)

def phiForm (vs : List Visit) : Form where
  phis := c.phisOf
  renamed n := c.state.blocks.getD n []
  final n := some (versionsBy vs Visit.final n)

def scheme : Scheme where
  Version := c.Version
  strict := False
  stuck := fun _ => False

section Twins

variable {vs : List Visit} (wk : Workable c.body) (w : c.Visits vs)
  (cv : Convertible f)
include wk w

omit wk w in
lemma source_twins (vs : List Visit) (fm : Form) :
    source (c.blocks.entries.map (twin vs fm)) = c.blocks.reassemble := by
  simp [source, NamedBlocks.reassemble, flatMap_map, twin]

omit wk in
lemma target_twins :
    target (c.blocks.entries.map (twin vs (c.phiForm vs))) = c.result.reassemble := by
  have keys : c.state.blocks.keys = c.blocks.keys := w.blockKeys
  have nd := c.nodup_keys
  rw [NamedBlocks.reassemble, c.result_entries.1,
    entries_eq_map_keys (t := c.state.blocks) (keys ▸ nd) [], keys, Table.keys]
  simp [target, flatMap_map, twin, phiForm]

lemma versionsBy_eq {n : String} {u : Visit} (hlive : c.Live n) (hu : u ∈ vs) (hn : u.block = n)
    (g : Visit → Table String (List String)) : versionsBy vs g n = inForceBy (g u) := by
  cases hf : vs.find? fun u => u.block == n with
  | none =>
    have := find?_eq_none.mp hf u hu
    simp [hn] at this
  | some v =>
    have hvn : v.block = n := by simpa using find?_some hf
    have e := c.visit_unique (c.entryFree wk) w (mem_of_find?_eq_some hf) hu (hvn.trans hn.symm)
      (hn ▸ hlive)
    rw [versionsBy, hf, e]
    rfl

include cv in
/-- The phis of a block select the versions in force at the end of each predecessor. -/
lemma links {u v : Visit} (hu : u ∈ vs) (hv : v ∈ vs) (hlive : c.Live u.block)
    (e : c.succ.Edge u.block v.block) :
    Links c.scheme u.block (inForceBy u.final) (c.phisOf v.block) (inForceBy v.start) where
  strict h := h.elim
  phis := by
    have hlive' : c.Live v.block := hlive.step e
    obtain ⟨v', hv', on⟩ := c.exists_visit (c.entryFree wk) w hlive'
    obtain rfl := c.visit_unique (c.entryFree wk) w hv' hv on.block hlive'
    have hkey : v'.block ∈ c.state.blocks.keys := mem_keys.mpr ⟨_, on.left⟩
    obtain ⟨nd, mem, all⟩ := c.phisOf_spec w hkey
    refine ⟨c.phiVars v'.block, nd, ?_, fun x hx => ?_⟩
    · obtain ⟨len, all⟩ := forall₂_iff_zip.mp all
      refine forall₂_iff_zip.mpr ⟨len, fun {x i} hz => ?_⟩
      have hx : x ∈ c.phis.getD v'.block [] := (mem x).mp (of_mem_zip hz).1
      have isPhi := all hz
      obtain ⟨k, hk, hr⟩ := on.merged x hx
      have hzip : (i.labels.getD []).zip i.uses = c.state.operands v'.block x := by
        rw [isPhi.labels, Instr.uses, isPhi.args]
        simp [zip_map']
      exact {
        op := isPhi.op
        arity := by simp [isPhi.labels, Instr.uses, isPhi.args]
        dest := by
          have assigned := (c.phi_sound (c.entryFree wk) hx).1
          exact ⟨versionOf x k, isPhi.dest.trans hr, .inl ⟨assigned, k, rfl⟩, by
            simp [inForceBy, hk, eq_comm]⟩
        operand := fun o ho => by
          rw [hzip] at ho
          have hmem := mem_of_get? (t := ⟨_⟩) ho
          obtain ⟨_, rfl⟩ := c.operand_of_live w (c.entryFree wk) hmem hu rfl hlive
          exact c.reads_handed cv _ x
        missing := fun hnone => by
          rw [hzip] at hnone
          have hop := c.exists_operand w hu e hx
          have := lookup_eq_none_iff.mp hnone _ hop
          simp at this }
    · rw [mem] at hx
      have same := c.edge_versions (c.entryFree wk) w hu hv hlive e hx
      have same' : inForceBy v'.start x = inForceBy u.final x := by
        unfold inForceBy
        rw [same]
      exact ⟨fun n hn => .inl (same' ▸ hn), fun lack n hn => lack n (same' ▸ hn)⟩

def liveTwin (b : Twin) : Prop := ∃ n, b.head.label = some n ∧ c.Live n

omit wk w in
lemma live_of_liveTwin {e : String × Block} {fm : Form} (h : c.liveTwin (twin vs fm e)) :
    c.Live e.1 := by
  obtain ⟨n, hn, live⟩ := h
  cases hn
  exact live

lemma visit_of_live {e : String × Block} (he : e ∈ c.blocks.entries) (hlive : c.Live e.1) :
    ∃ u ∈ vs, Walk.Once c.phis c.start c.state u.block u ∧ u.block = e.1 ∧ u.code = e.2 ∧
      versionsBy vs Visit.start u.block = inForceBy u.start := by
  obtain ⟨u, hu, on⟩ := c.exists_visit (c.entryFree wk) w hlive
  have hget : c.blocks.get? e.1 = some e.2 := get?_of_mem c.nodup_keys he
  have hfound : c.blocks.get? e.1 = some u.code := on.found
  rw [hget] at hfound
  exact ⟨u, hu, on.block.symm ▸ on, on.block, (Option.some.inj hfound).symm,
    c.versionsBy_eq wk w (on.block ▸ hlive) hu rfl _⟩

include cv in
lemma versioned_twins {σ : Scheme} {fm : Form} (fits : c.Fits σ vs fm) :
    Versioned σ c.liveTwin (c.blocks.entries.map (twin vs fm)) where
  functional := fits.version ▸ c.functional_version cv
  heads := forall_mem_map.mpr fun e _ => ⟨rfl, e.1, rfl⟩
  code := forall_mem_map.mpr fun _ he => (c.block_items wk (get?_of_mem c.nodup_keys he)).1
  renamed := forall_mem_map.mpr fun e he => fits.unlabelled e.1 (mem_keys_of_mem he)
  proper := forall_mem_map.mpr fun e he lv => by
    have hlive := c.live_of_liveTwin lv
    obtain ⟨u, hu, on, hu₁, _, hstart⟩ := c.visit_of_live wk w he hlive
    simp only [twin, ← hu₁, hstart, fits.version]
    exact (c.proper_visit wk w hu (hu₁ ▸ hlive)).1
  renames := forall_mem_map.mpr fun e he lv => by
    have hlive := c.live_of_liveTwin lv
    obtain ⟨u, hu, on, hu₁, hcode, hstart⟩ := c.visit_of_live wk w he hlive
    simp only [twin, hstart, ← hcode, ← hu₁]
    exact fits.renames u hu (hu₁ ▸ hlive) on
  jumps := forall_mem_map.mpr fun e he lv i hi hbr l hl b' hb' hlabel => by
    have hlive := c.live_of_liveTwin lv
    obtain ⟨e', he', rfl⟩ := mem_map.mp hb'
    obtain rfl : e'.1 = l := by simpa [twin, Instr.labelled] using hlabel
    have edge : c.succ.Edge e.1 e'.1 :=
      (c.edge_iff wk).mpr ⟨e.2, get?_of_mem c.nodup_keys he, i, hi, hbr, hl⟩
    have hlive' : c.Live e'.1 := hlive.step edge
    refine ⟨⟨e'.1, rfl, hlive'⟩, fun p ν hp hν => ?_⟩
    obtain rfl : e.1 = p := by simpa [twin, Instr.labelled] using hp
    obtain ⟨u, hu, _, hu₁, _, _⟩ := c.visit_of_live wk w he hlive
    obtain ⟨v, hv, _, hv₁, _, hstart⟩ := c.visit_of_live wk w he' hlive'
    simp only [twin, hstart, ← hu₁, ← hv₁] at hν ⊢
    exact fits.links u hu v hv (hu₁ ▸ hlive) (hu₁ ▸ hv₁ ▸ edge) ν hν
  falls before b b' behind h _ hopen := by
    have hb : b ∈ c.blocks.entries.map (twin vs fm) := by simp [h]
    obtain ⟨e, he, rfl⟩ := mem_map.mp hb
    have hend := (c.block_items wk (get?_of_mem c.nodup_keys he)).2.1
    rw [Block.not_ended (b := e.2) hopen] at hend
    cases hend

include cv in
lemma fits_phiForm : c.Fits c.scheme vs (c.phiForm vs) where
  version := rfl
  unlabelled n hn i hi := by
    have hkeys : c.state.blocks.keys = c.blocks.keys := w.blockKeys
    rw [← hkeys] at hn
    obtain hi | hi := mem_append.mp hi
    · obtain ⟨x, _, isPhi⟩ := c.exists_isPhi w hn hi
      exact isPhi.label
    · obtain ⟨b, hb⟩ := mem_keys.mp hn
      obtain ⟨j, hs, hl, _⟩ := c.exists_shape w wk hb (by simpa [phiForm, Table.getD, hb] using hi)
      rw [Instr.label_of_shape hs, hl]
  renames u hu hlive on := by
    obtain ⟨_, _, _, last', _, _, _, hrenamed, hlast, all⟩ :=
      c.renames_visit (σ := c.scheme) wk (fun x k hx => .inl ⟨hx, k, rfl⟩) on
    simp only [phiForm, Table.getD, on.left, hrenamed,
      c.versionsBy_eq wk w hlive hu rfl]
    exact all [last'] _ (.cons hlast (fun _ => rfl) .nil)
  links u hu v hv hlive e ν hν := by
    obtain rfl := Option.some.inj hν
    rw [c.versionsBy_eq wk w hlive hu rfl]
    exact c.links wk w cv hu hv hlive e

end Twins

section Start

variable {V W : Type} (cv : Convertible f)

include cv in
lemma agree_params (vals : List V) : Agree c.Version (inForceBy c.start.versions)
    (bindParams f.params vals) (bindParams f.params vals) := by
  have other : ∀ x, x ∉ c.args → bindParams f.params vals x = none := by
    intro x hx
    refine bindParams_eq_none vals fun p hp e => hx ?_
    have hmem : p.name ∈ f.params.map Param.name := mem_map_of_mem hp
    rw [c.map_name_params, e] at hmem
    simpa using hmem
  exact {
    named := fun x n hn => by rw [(c.inForceBy_start.mp hn).2]
    unnamed := fun x hx => other x fun h => hx x (c.inForceBy_start.mpr ⟨h, rfl⟩)
    absent := by
      rintro x n (⟨hx, k, rfl⟩ | ⟨rfl, _⟩) he
      · by_cases hn : versionOf x k ∈ c.args
        · have e := c.functional_version cv x _ _ (.inl ⟨hx, k, rfl⟩) (.inr ⟨rfl, hn⟩)
          rw [← e]
          exact he
        · exact other _ hn
      · exact he
    unset := fun n hn => other n fun h => hn n (.inr ⟨rfl, h⟩) }

variable {vs : List Visit} (wk : Workable c.body) (w : c.Visits vs)

include wk w in
/-- The entry has no phis and starts from the parameters. -/
lemma entry_visit : c.phisOf c.entry = [] ∧
    versionsBy vs Visit.start c.entry = inForceBy c.start.versions := by
  obtain ⟨u, hu, on⟩ := c.exists_visit (c.entryFree wk) w .root
  have noPhi : ∀ x, x ∉ c.phis.getD c.entry [] := fun x hx =>
    let ⟨p, e⟩ := (c.phi_sound (c.entryFree wk) hx).2
    c.entryFree wk p e
  constructor
  · obtain ⟨_, mem, all⟩ := c.phisOf_spec w (mem_keys.mpr ⟨_, on.left⟩)
    have none : c.phiVars c.entry = [] :=
      eq_nil_iff_forall_not_mem.mpr fun x hx => noPhi x ((mem x).mp hx)
    rw [none, forall₂_nil_left_iff] at all
    exact all
  · have arrives : u.before = c.start.versions := by
      cases w.rooted u hu with
      | root _ _ hb => exact hb
      | child _ _ hc _ =>
        rw [on.block] at hc
        have cp := c.computed (c.entryFree wk)
        obtain ⟨hdom, hne, _⟩ := cp.parent_spec c.nodup_succ c.tree_eq .root hc
        exact absurd hdom.eq_root.symm hne
    rw [c.versionsBy_eq wk w .root hu on.block]
    funext x n
    rw [inForceBy, inForceBy, on.carried x (noPhi x), arrives]

include wk w in
lemma twins_eq_cons (fm : Form) :
    ∃ b bs, c.blocks.entries.map (twin vs fm) = b :: bs ∧ c.liveTwin b ∧
      b.head.label = some c.entry ∧ b.phis = fm.phis c.entry ∧
      b.start = inForceBy c.start.versions ∧ ∀ d ∈ bs, d.head.label ≠ some c.entry := by
  have first := c.entry_eq_head
  have nd := c.nodup_keys
  cases hb : c.blocks.entries with
  | nil => simp [Table.keys, hb] at first
  | cons e rest =>
    have he : e.1 = c.entry := by simpa [Table.keys, hb] using first
    rw [Table.keys, hb, map_cons, nodup_cons] at nd
    refine ⟨_, _, rfl, ⟨c.entry, he ▸ rfl, .root⟩, he ▸ rfl, he ▸ rfl, ?_, fun d hd hl => nd.1 ?_⟩
    · rw [← (c.entry_visit wk w).2, ← he]
      rfl
    · obtain ⟨e', he', rfl⟩ := mem_map.mp hd
      have e₁ : e'.1 = e.1 := by simpa [twin, Instr.labelled, he] using hl
      exact e₁ ▸ mem_map_of_mem he'

include wk w cv in
lemma follows_blocks {M : Meaning V W} {s t : State V W} {vals : List V}
    (hs : s.rest = c.blocks.reassemble) (ht : t.rest = c.result.reassemble)
    (he : s.env = bindParams f.params vals) (he' : t.env = bindParams f.params vals)
    (hw : s.world = t.world) :
    Follows M c.blocks.reassemble c.result.reassemble (fun _ => False) [] s t := by
  have twins := c.versioned_twins wk w cv (c.fits_phiForm wk w cv)
  obtain ⟨b, bs, hb, live, _, phis, start, _⟩ := c.twins_eq_cons wk w (c.phiForm vs)
  rw [← c.source_twins vs (c.phiForm vs)] at hs ⊢
  rw [← c.target_twins w] at ht ⊢
  rw [hb] at twins hs ht ⊢
  have agree : Agree c.scheme.Version b.start s.env t.env := by
    rw [start, he, he']
    exact c.agree_params cv vals
  have run := twins.follows (M := M) live (phis.trans (c.entry_visit wk w).1) agree
    (fun h => h.elim) hw hs ht
  exact fun n => .inl (run.exact (fun u ⟨_, _, _, h⟩ => h) n)

end Start

lemma unspeculative_result (none : Unspeculative (f.instrs.getD [])) :
    Unspeculative c.result.reassemble := by
  obtain ⟨vs, w⟩ := c.exists_visits
  refine NamedBlocks.unspeculative_reassemble (c.keys_result w ▸ c.nodup_keys) fun n b hb i hi => ?_
  obtain ⟨b', hb', rfl⟩ := c.get?_result.mp hb
  obtain hi | hi := mem_append.mp hi
  · obtain ⟨x, _, phi⟩ := c.exists_isPhi w (mem_keys.mpr ⟨_, hb'⟩) hi
    simp [Instr.speculates, phi.op]
  · obtain ⟨b₀, hb₀, shapes⟩ := Walk.shapes w hb'
    obtain ⟨j, hj, e⟩ := mem_map.mp (shapes ▸ mem_map_of_mem hi)
    rw [Instr.speculates_of_shape e.symm]
    exact NamedBlocks.unspeculative_explicit (c.body_getD ▸ none) c.blocks_eq hb₀ j hj

end Conversion

lemma convertible_countdown : Convertible .countdown where
  body := {
    items := by decide
    phiFree := by decide
    named := by decide
    targets := by simp [Func.countdown, Instr.labelled, Instr.jump] }
  defined := by simp [Func.countdown, Func.params, undefinedName]
  unversioned := by
    intro p hp i _ d _ k
    obtain rfl : p = ⟨some "n", some (.name "int"), []⟩ := by
      simpa [Func.countdown, Func.params] using hp
    simpa using ne_versionOf (x := "n") (y := d) (n := k) (by decide)

lemma convertible_guessing : Convertible .guessing where
  body := {
    items := by decide
    phiFree := by decide
    named := by decide
    targets := by simp [Func.guessing, Func.guess, Instr.labelled] }
  defined := by simp [Func.guessing, Func.params, undefinedName]
  unversioned := by
    intro p hp i _ d _ k
    obtain rfl : p = ⟨some "b", some .bool, []⟩ := by simpa [Func.guessing, Func.params] using hp
    simpa using ne_versionOf (x := "b") (y := d) (n := k) (by decide)

def guessed : Func := Func.guessing.withBody
  [.labelled "b1", Sample.whole "v.0" 4, Sample.plain "speculate", Sample.whole "v.1" 2,
    { op := some "guard", args := some ["b"], labels := some ["failed"] }, Sample.plain "commit",
    .jump "failed", .labelled "failed", Sample.effect "print" ["v.1"], NamedBlocks.implicitReturn]

lemma enter_eq_guessed : enter .guessing = .ok guessed := by cbv

end Ssa

end BrilKit
