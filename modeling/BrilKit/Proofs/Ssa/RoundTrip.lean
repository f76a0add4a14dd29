import BrilKit.Proofs.Block.Reassemble
import BrilKit.Proofs.Ssa.Dissolve
import BrilKit.Proofs.Ssa.Enter

/-!
# Into single-assignment form and out of it

The copies that replace the phis of a block stand before the terminators of its predecessors, one
after the other and also where the predecessor has other successors.
-/

namespace BrilKit

open List Table

namespace Ssa

open Machine Renaming

def CopiesUndefined (i : Instr) : Prop := i.op = some "id" ∧ i.uses = [undefinedName]

namespace Conversion

variable {f : Func} (c : Conversion f) {t : Table String (List String)} {cs : Block} {last : Instr}

/-- The scheme of blocks with copies: copies are made of values only. -/
def copyScheme : Scheme where
  Version := c.Version
  strict := True
  stuck := CopiesUndefined

/-- A copy of the version of a variable that is in force at the end of a block. -/
structure IsCopy (t : Table String (List String)) (x d : String) (i : Instr) : Prop where
  op : i.op = some "id"
  uses : i.uses = [handed t x]
  dest : i.dest = some d
  version : c.Version x d

/-- Copies before the terminator of a block bring further versions into force, unless one of them
has no value to copy. -/
lemma renames_copies {last' : Instr} {ν ν' : Naming} (hcs : ∀ i ∈ cs, ∃ x d, c.IsCopy t x d i)
    (wd : (inForceBy t).Widens ν) (hlast : RenamesInstr c.copyScheme ν last last' ν')
    (hd : last.dest = none) :
    ∃ final, Renames c.copyScheme ν [last] (cs ++ [last']) final ∧
      ∀ μ, final = some μ → ν.Widens μ ∧ ∀ i ∈ cs, ∃ x d, c.IsCopy t x d i ∧ μ x d := by
  induction cs generalizing ν ν' with
  | nil =>
    refine ⟨some ν, .cons (hlast.widen hd .refl) (fun _ => rfl) .nil, ?_⟩
    rintro μ ⟨rfl⟩
    exact ⟨.refl, by simp⟩
  | cons i cs ih =>
    obtain ⟨x, d, cp⟩ := hcs i (by simp)
    cases hx : t.getD x [] with
    | nil =>
      have hundef : CopiesUndefined i := ⟨cp.op, by rw [cp.uses, handed, hx]; rfl⟩
      exact ⟨none, .stuck hundef, by simp⟩
    | cons n ns =>
      have hforce : inForceBy t x n := by simp [inForceBy, hx]
      have hn : ν x n := wd.kept x n hforce
      have hadd : ν.Widens (ν.add x d) := .add hn
      obtain ⟨final, hr, h⟩ := ih (fun j hj => hcs j (by simp [hj])) (wd.trans hadd)
        (hlast.widen hd hadd)
      have copy : CopiesVersion c.Version ν x d i :=
        ⟨cp.op, ⟨n, by rw [cp.uses, handed, hx]; rfl, hn⟩, cp.dest, cp.version⟩
      refine ⟨final, .copy trivial copy hr, fun μ hμ => ?_⟩
      obtain ⟨wd', all⟩ := h μ hμ
      refine ⟨hadd.trans wd', fun j hj => ?_⟩
      obtain rfl | hj := mem_cons.mp hj
      · exact ⟨x, d, cp, wd'.kept x d (.inr ⟨rfl, rfl⟩)⟩
      · exact all j hj

lemma ruined_copies (hcs : ∀ i ∈ cs, ∃ x d, c.IsCopy t x d i) (ht : last.isTerminator = true)
    (hd : last.dest.isSome = true) : Ruined (cs ++ [last]) := by
  induction cs with
  | nil => exact .transfer ht hd
  | cons i cs ih =>
    obtain ⟨x, d, cp⟩ := hcs i (by simp)
    exact .copy cp.op (ih fun j hj => hcs j (by simp [hj]))

section Result

variable {vs : List Visit} (wk : Workable c.body) (w : c.Visits vs)
  {n : String}
include wk w

lemma renamed_last {b' : Block} (h : c.state.blocks.get? n = some b') :
    ∃ is last, b' = is ++ [last] ∧ last.isTerminator = true ∧ ∀ i ∈ is, i.isTerminator = false := by
  obtain ⟨b, hb, hs⟩ := Walk.shapes w h
  obtain ⟨_, ended, ends, _⟩ := c.block_items wk hb
  obtain ⟨is, last, rfl, hlast, straight⟩ := Block.exists_last ended ends
  have term : ∀ {i j : Instr}, i.shape = j.shape → i.isTerminator = j.isTerminator := fun e => by
    rw [Instr.isTerminator, Instr.isTerminator, Instr.op_of_shape e]
  rw [map_append, map_eq_append_iff] at hs
  obtain ⟨is', ls', rfl, his, hls⟩ := hs
  obtain ⟨last', rfl, hl⟩ := map_eq_singleton_iff.mp hls
  refine ⟨is', last', rfl, (term hl).trans hlast, fun i hi => ?_⟩
  have hmem : i.shape ∈ is'.map Instr.shape := mem_map_of_mem hi
  rw [his] at hmem
  obtain ⟨j, hj, e⟩ := mem_map.mp hmem
  rw [term e.symm, straight j hj]

lemma complete_result {b : Block} (h : c.result.get? n = some b) : Block.Complete b := by
  obtain ⟨b', hb', rfl⟩ := c.get?_result.mp h
  have hkey : n ∈ c.state.blocks.keys := mem_keys.mpr ⟨_, hb'⟩
  obtain ⟨is, last, rfl, hlast, straight⟩ := c.renamed_last wk w hb'
  have phis : ∀ i ∈ c.phisOf n, i.op = some "phi" := fun i hi =>
    let ⟨_, _, isPhi⟩ := c.exists_isPhi w hkey hi
    isPhi.op
  refine ⟨fun i hi => ?_, c.phisOf n ++ is, last, by simp, hlast, fun i hi => ?_⟩
  · obtain hi | hi := mem_append.mp hi
    · simp [Instr.isOp, phis i hi]
    · obtain ⟨j, e, _, op, ho, _⟩ := c.exists_shape w wk hb' hi
      simp [Instr.isOp, Instr.op_of_shape e, ho]
  · obtain hi | hi := mem_append.mp hi
    · simp [Instr.isTerminator, phis i hi, terminators]
    · exact straight i hi

lemma completePhi {b : Block} {i : Instr} (h : c.result.get? n = some b) (hi : i ∈ b)
    (hp : i.hasOp "phi" = true) : CompletePhi c.blocks.keys i := by
  obtain ⟨b', hb', rfl⟩ := c.get?_result.mp h
  have hkey : n ∈ c.state.blocks.keys := mem_keys.mpr ⟨_, hb'⟩
  obtain hi | hi := mem_append.mp hi
  · obtain ⟨x, hx, isPhi⟩ := c.exists_isPhi w hkey hi
    obtain ⟨u, _, on⟩ := c.exists_visit (c.entryFree wk) w (c.phi_live (c.entryFree wk) hx)
    obtain ⟨k, _, hr⟩ := on.merged x hx
    refine ⟨⟨_, isPhi.dest.trans hr⟩, isPhi.type, ⟨_, isPhi.labels, ?_⟩, ⟨_, isPhi.args⟩,
      by simp [isPhi.labels, isPhi.args, Instr.uses]⟩
    intro l hl
    obtain ⟨p, hp, rfl⟩ := mem_map.mp hl
    rw [w.operands, start_operands] at hp
    obtain ⟨v, hv, _, _, rfl⟩ := hp.resolve_left (by simp)
    exact w.visited v hv
  · obtain ⟨j, e, _, op, ho, hne⟩ := c.exists_shape w wk hb' hi
    simp [Instr.hasOp, Instr.op_of_shape e, ho, hne] at hp

end Result

/-- The blocks of the result with their control flow made explicit: maybe there is a new entry. -/
structure Framed (t : NamedBlocks) : Prop where
  keys : t.keys.Nodup
  old : ∀ n b, c.result.get? n = some b → t.get? n = some b
  new : ∀ n b, t.get? n = some b → c.result.get? n = some b ∨ n ∉ c.blocks.keys ∧ ∃ l, b = [.jump l]

def copyForm (t : NamedBlocks) (final : String → Option Naming) : Form where
  phis _ := []
  renamed n := t.getD n []
  final := final

section Copies

variable {vs : List Visit} (wk : Workable c.body) (w : c.Visits vs)
  {t t' : NamedBlocks} (fr : c.Framed t) {n x d : String} {i : Instr} {u : Visit}
include wk w fr

lemma dissolvable : Dissolvable t where
  keys := fr.keys
  phis n b hb i hi hp := by
    obtain hb | ⟨_, l, rfl⟩ := fr.new n b hb
    · have cp := c.completePhi wk w hb hi hp
      obtain ⟨ls, hls, hl⟩ := cp.labels
      refine { cp with labels := ⟨ls, hls, fun l h => ?_⟩ }
      have hkey := hl l h
      rw [← c.keys_result w] at hkey
      obtain ⟨b, hb⟩ := mem_keys.mp hkey
      exact mem_keys.mpr ⟨b, fr.old l b hb⟩
    · obtain rfl : i = .jump l := by simpa using hi
      simp [Instr.hasOp, Instr.jump] at hp
  last n b hb := by
    obtain hb | ⟨_, l, rfl⟩ := fr.new n b hb
    · obtain ⟨_, is, last, rfl, hlast, _⟩ := c.complete_result wk w hb
      by_contra hp
      have ho : last.op = some "phi" := by simpa [Instr.hasOp] using hp
      simp [Instr.isTerminator, ho, terminators] at hlast
    · exact ⟨[], .jump l, rfl, by simp [Instr.hasOp, Instr.jump]⟩

omit wk w fr in
lemma copies_isPhi (h : c.IsPhi n x i) (hr : (c.state.results.getD n .empty).get? x = some d) :
    ∃ ty, copies i = (c.state.operands n x).map fun e => (e.1, copyTo d ty e.2) := by
  obtain ⟨ty, hty⟩ := h.type
  have hp : i.hasOp "phi" = true := by simp [Instr.hasOp, h.op]
  have hzip : (i.labels.getD []).zip i.uses = c.state.operands n x := by
    rw [h.labels, Instr.uses, h.args]
    simp [zip_map']
  refine ⟨ty, ?_⟩
  unfold copies
  rw [hp, h.dest, hr, hty, hzip]

/-- A copy in a block that control can get to is one of a version in force at its end. -/
lemma isCopy (hu : u ∈ vs) (hlive : c.Live u.block) (h : i ∈ into u.block (allCopies t t.keys)) :
    ∃ x d, c.IsCopy u.final x d i := by
  obtain ⟨m, hm, h⟩ := mem_flatMap.mp (mem_into.mp h)
  obtain ⟨j, hj, h⟩ := mem_flatMap.mp h
  obtain ⟨b, hb⟩ := mem_keys.mp hm
  have hp : j.hasOp "phi" = true := by
    by_contra hp
    simp [copies_eq_nil (by simpa using hp)] at h
  rw [Table.getD, hb] at hj
  obtain hb | ⟨_, l, rfl⟩ := fr.new m b hb
  · obtain ⟨b', hb', rfl⟩ := c.get?_result.mp hb
    obtain hj | hj := mem_append.mp hj
    · obtain ⟨x, hx, isPhi⟩ := c.exists_isPhi w (mem_keys.mpr ⟨_, hb'⟩) hj
      obtain ⟨v, _, on⟩ := c.exists_visit (c.entryFree wk) w (c.phi_live (c.entryFree wk) hx)
      obtain ⟨k, _, hr⟩ := on.merged x hx
      obtain ⟨ty, hc⟩ := c.copies_isPhi isPhi hr
      rw [hc] at h
      obtain ⟨⟨l, o⟩, ho, e⟩ := mem_map.mp h
      obtain ⟨rfl, rfl⟩ := Prod.mk.inj e
      obtain ⟨_, rfl⟩ := c.operand_of_live w (c.entryFree wk) ho hu rfl hlive
      exact ⟨x, versionOf x k, rfl, rfl, rfl, .inl ⟨(c.phi_sound (c.entryFree wk) hx).1, k, rfl⟩⟩
    · obtain ⟨j', e, _, op, ho, hne⟩ := c.exists_shape w wk hb' hj
      simp [Instr.hasOp, Instr.op_of_shape e, ho, hne] at hp
  · obtain rfl : j = .jump l := by simpa using hj
    simp [Instr.hasOp, Instr.jump] at hp

lemma exists_copy (hu : u ∈ vs) (e : c.succ.Edge u.block n) (hx : x ∈ c.phis.getD n [])
    (hr : (c.state.results.getD n .empty).get? x = some d) :
    ∃ i ∈ into u.block (allCopies t t.keys), i.dest = some d := by
  obtain ⟨v, _, on⟩ := c.exists_visit (c.entryFree wk) w (c.phi_live (c.entryFree wk) hx)
  obtain ⟨j, hj, isPhi⟩ := c.exists_phi w (mem_keys.mpr ⟨_, on.left⟩) hx
  obtain ⟨ty, hc⟩ := c.copies_isPhi isPhi hr
  have hget := fr.old n _ (c.get?_result.mpr ⟨_, on.left, rfl⟩)
  refine ⟨copyTo d ty (handed u.final x), mem_into.mpr (mem_flatMap.mpr ⟨n, ?_, ?_⟩), rfl⟩
  · exact mem_keys.mpr ⟨_, hget⟩
  · refine mem_flatMap.mpr ⟨j, by simp [Table.getD, hget, hj], ?_⟩
    rw [hc]
    exact mem_map_of_mem (f := fun e : String × String => (e.1, copyTo d ty e.2))
      (c.exists_operand w hu e hx)

lemma dissolved {is : Block} {last : Instr} (ds : Dissolving t t.keys t')
    (h : c.state.blocks.get? n = some (is ++ [last])) :
    t'.getD n [] = is ++ into n (allCopies t t.keys) ++ [last] := by
  have hget := fr.old n _ (c.get?_result.mpr ⟨_, h, rfl⟩)
  rw [← append_assoc] at hget
  rw [Table.getD, ds.done n (mem_keys.mpr ⟨_, hget⟩) _ _ hget, Option.getD_some]
  have hphis : (c.phisOf n).filter (fun i => !i.hasOp "phi") = [] := by
    refine filter_eq_nil_iff.mpr fun i hi => ?_
    obtain ⟨x, _, isPhi⟩ := c.exists_isPhi w (mem_keys.mpr ⟨_, h⟩) hi
    simp [Instr.hasOp, isPhi.op]
  have hcode : is.filter (fun i => !i.hasOp "phi") = is := by
    refine filter_eq_self.mpr fun i hi => ?_
    obtain ⟨j, e, _, op, ho, hne⟩ := c.exists_shape w wk h (i := i) (by simp [hi])
    simp [Instr.hasOp, Instr.op_of_shape e, ho, hne]
  rw [filter_append, hphis, hcode, nil_append]

variable (cv : Convertible f)
include cv

/-- The copies at the end of a block bring the versions into force that a successor starts with. -/
lemma links_copies {v : Visit} {μ : Naming} (hu : u ∈ vs) (hv : v ∈ vs) (hlive : c.Live u.block)
    (e : c.succ.Edge u.block v.block) (wd : (inForceBy u.final).Widens μ)
    (all : ∀ i ∈ into u.block (allCopies t t.keys), ∃ x d, c.IsCopy u.final x d i ∧ μ x d) :
    Links c.copyScheme u.block μ [] (inForceBy v.start) := by
  have hlive' : c.Live v.block := hlive.step e
  obtain ⟨v', hv', on⟩ := c.exists_visit (c.entryFree wk) w hlive'
  obtain rfl := c.visit_unique (c.entryFree wk) w hv' hv on.block hlive'
  have merged : ∀ x ∈ c.phis.getD v'.block [], ∃ d, (∀ n, inForceBy v'.start x n ↔ n = d) ∧ μ x d := by
    intro x hx
    obtain ⟨k, hk, hr⟩ := on.merged x hx
    obtain ⟨i, hi, hd⟩ := c.exists_copy wk w fr hu e hx hr
    obtain ⟨y, d, cp, hμ⟩ := all i hi
    obtain rfl : versionOf x k = d := Option.mem_unique hd cp.dest
    obtain rfl : y = x := c.functional_version cv y x _ cp.version
      (.inl ⟨(c.phi_sound (c.entryFree wk) hx).1, k, rfl⟩)
    exact ⟨versionOf y k, fun n => by simp [inForceBy, hk, eq_comm], hμ⟩
  have same : ∀ x, x ∉ c.phis.getD v'.block [] → inForceBy v'.start x = inForceBy u.final x := by
    intro x hx
    unfold inForceBy
    rw [c.edge_versions (c.entryFree wk) w hu hv hlive e hx]
  have kept : ∀ x n, inForceBy v'.start x n → μ x n := by
    intro x n hn
    by_cases hx : x ∈ c.phis.getD v'.block []
    · obtain ⟨d, hd, hμ⟩ := merged x hx
      exact (hd n).mp hn ▸ hμ
    · exact wd.kept x n (same x hx ▸ hn)
  refine ⟨⟨[], .nil, .nil, fun x _ => ⟨fun n hn => .inl (kept x n hn), fun lack => ?_⟩⟩, fun _ => kept⟩
  by_cases hx : x ∈ c.phis.getD v'.block []
  · obtain ⟨d, hd, _⟩ := merged x hx
    exact absurd ((hd d).mpr rfl) (lack d)
  · exact wd.lacks x fun n hn => lack n (same x hx ▸ hn)

/-- A live block with its copies, and the versions in force behind them. -/
lemma exists_final (ds : Dissolving t t.keys t') (hu : u ∈ vs) (hlive : c.Live u.block)
    (on : Walk.Once c.phis c.start c.state u.block u) :
    ∃ final, Renames c.copyScheme (inForceBy u.start) u.code (t'.getD u.block []) final ∧
      ∀ v ∈ vs, c.succ.Edge u.block v.block → ∀ ν, final = some ν →
        Links c.copyScheme u.block ν [] (inForceBy v.start) := by
  obtain ⟨is, last, is', last', ν, hcode, hterm, hrenamed, hlast, all⟩ :=
    c.renames_visit (σ := c.copyScheme) wk (fun x k hx => .inl ⟨hx, k, rfl⟩) on
  have hleft := on.left
  rw [hrenamed] at hleft
  have hcopies : ∀ i ∈ into u.block (allCopies t t.keys), ∃ x d, c.IsCopy u.final x d i :=
    fun i hi => c.isCopy wk w fr hu hlive hi
  rw [c.dissolved wk w fr ds hleft, append_assoc]
  cases hd : last.dest with
  | some d =>
    -- The run of the block fails at its terminator.
    have hterm' : last'.isTerminator = true := by
      rwa [Instr.isTerminator, Instr.op_of_shape hlast.shape]
    have hd' : last'.dest.isSome = true := by simp [Instr.dest_isSome_of_shape hlast.shape, hd]
    exact ⟨none, all _ _ (.ruined hterm (by simp [hd]) (c.ruined_copies hcopies hterm' hd')), by simp⟩
  | none =>
    have hν : inForceBy u.final = ν := by
      obtain ⟨_, h⟩ | ⟨x, n, hx, _⟩ := hlast.dest
      · exact h
      · rw [hd] at hx
        cases hx
    obtain ⟨final, hr, h⟩ := c.renames_copies hcopies (hν ▸ .refl) hlast hd
    refine ⟨final, all _ _ hr, fun v hv e μ hμ => ?_⟩
    obtain ⟨wd, hμ⟩ := h μ hμ
    exact c.links_copies wk w fr cv hu hv hlive e (hν ▸ wd) hμ

omit cv in
lemma into_new (hn : n ∉ c.blocks.keys) : into n (allCopies t t.keys) = [] := by
  refine eq_nil_iff_forall_not_mem.mpr fun i hi => hn ?_
  obtain ⟨m, hm, h⟩ := mem_flatMap.mp (mem_into.mp hi)
  obtain ⟨j, hj, h⟩ := mem_flatMap.mp h
  obtain ⟨b, hb⟩ := mem_keys.mp hm
  rw [Table.getD, hb] at hj
  refine copies_label (fun hp => ?_) h
  obtain hb | ⟨_, l, rfl⟩ := fr.new m b hb
  · exact c.completePhi wk w hb hj hp
  · obtain rfl : j = .jump l := by simpa using hj
    simp [Instr.hasOp, Instr.jump] at hp

lemma exists_copyForm (ds : Dissolving t t.keys t') :
    ∃ final, c.Fits c.copyScheme vs (copyForm t' final) := by
  have finals : ∀ n, ∃ final, ∀ u ∈ vs, u.block = n → c.Live u.block →
      Renames c.copyScheme (inForceBy u.start) u.code (t'.getD u.block []) final ∧
        ∀ v ∈ vs, c.succ.Edge u.block v.block → ∀ ν, final = some ν →
          Links c.copyScheme u.block ν [] (inForceBy v.start) := by
    intro n
    by_cases hlive : c.Live n
    · obtain ⟨u, hu, on⟩ := c.exists_visit (c.entryFree wk) w hlive
      obtain rfl := on.block
      obtain ⟨final, h⟩ := c.exists_final wk w fr cv ds hu hlive on
      refine ⟨final, fun v hv e hv' => ?_⟩
      obtain rfl := c.visit_unique (c.entryFree wk) w hu hv e.symm hv'
      exact h
    · exact ⟨none, fun u _ e hu => absurd (e ▸ hu) hlive⟩
  choose final hfinal using finals
  refine ⟨final, rfl, fun n hn i hi => ?_, fun u hu hlive _ => (hfinal u.block u hu rfl hlive).1,
    fun u hu v hv hlive e => (hfinal u.block u hu rfl hlive).2 v hv e⟩
  have hkeys : c.state.blocks.keys = c.blocks.keys := w.blockKeys
  rw [← hkeys] at hn
  obtain ⟨b, hb⟩ := mem_keys.mp hn
  obtain ⟨is, last, rfl, _⟩ := c.renamed_last wk w hb
  have hi : i ∈ t'.getD n [] := hi
  rw [c.dissolved wk w fr ds hb] at hi
  by_cases hc : i ∈ into n (allCopies t t.keys)
  · exact label_of_mem_into hc
  · obtain ⟨j, hs, hl, _⟩ := c.exists_shape w wk hb (i := i) (by simp_all)
    rw [Instr.label_of_shape hs, hl]

end Copies

section Frames

/-- Blocks behind a new entry, if there is one. -/
def led (o : Option String) (t : NamedBlocks) : NamedBlocks :=
  ⟨o.toList.map (fun m => (m, [.jump c.entry])) ++ t.entries⟩

def lead (o : Option String) : List Instr := o.toList.flatMap fun m => [.labelled m, .jump c.entry]

lemma reassemble_led {o : Option String} {t : NamedBlocks} :
    (c.led o t).reassemble = c.lead o ++ t.reassemble := by
  simp [NamedBlocks.reassemble, led, lead, flatMap_map]

variable {vs : List Visit} (wk : Workable c.body) (w : c.Visits vs) {o : Option String}
include wk w

/-- The body of the result has its own blocks, and maybe a new entry. -/
lemma explicit_result : ∃ o, (∀ m ∈ o, m ∉ c.blocks.keys) ∧
    NamedBlocks.explicit c.result.reassemble = .ok (c.led o c.result) ∧
      c.Framed (c.led o c.result) := by
  have keys := c.keys_result w
  have nd : c.result.keys.Nodup := keys ▸ c.nodup_keys
  have complete : ∀ e ∈ c.result.entries, Block.Complete e.2 := fun e he =>
    c.complete_result wk w (get?_of_mem nd he)
  have first := c.entry_eq_head
  rw [← keys] at first
  cases hb : c.result.entries with
  | nil => simp [Table.keys, hb] at first
  | cons e rest =>
    have he : e.1 = c.entry := by simpa [Table.keys, hb] using first
    obtain h | ⟨m, hm, h, _⟩ := NamedBlocks.explicit_reassemble nd complete hb
    · exact ⟨none, by simp, h, nd, fun _ _ h => h, fun _ _ h => .inl h⟩
    · rw [he] at h
      refine ⟨some m, by simpa [keys] using hm, h, nodup_cons.mpr ⟨hm, nd⟩, fun n b hn => ?_,
        fun n b hn => ?_⟩
      · have hne : n ≠ m := by
          rintro rfl
          exact hm (mem_keys.mpr ⟨b, hn⟩)
        exact (lookup_cons_ne hne).trans hn
      · by_cases hne : n = m
        · subst hne
          refine .inr ⟨keys ▸ hm, c.entry, ?_⟩
          simpa [led, Table.get?, eq_comm] using hn
        · exact .inl ((lookup_cons_ne hne).symm.trans hn)

variable {t' : NamedBlocks} (new : ∀ m ∈ o, m ∉ c.blocks.keys) (fr : c.Framed (c.led o c.result))
  (ds : Dissolving (c.led o c.result) (c.led o c.result).keys t') {final : String → Option Naming}
include new fr ds

lemma reassemble_dissolved (final : String → Option Naming) : t'.reassemble =
    c.lead o ++ target (c.blocks.entries.map (twin vs (copyForm t' final))) := by
  have nd : t'.keys.Nodup := ds.keys ▸ fr.keys
  have keys : t'.keys = o.toList ++ c.result.keys := by
    rw [ds.keys]
    simp [led, Table.keys, Function.comp_def]
  have front : (o.toList.flatMap fun m => .labelled m :: t'.getD m []) = c.lead o := by
    refine flatMap_congr fun m hm => ?_
    have hget : (c.led o c.result).get? m = some ([] ++ [.jump c.entry]) := by
      rw [Option.mem_toList.mp hm]
      simp [led, Table.get?]
    rw [Table.getD, ds.done m (mem_keys.mpr ⟨_, hget⟩) _ _ hget,
      c.into_new wk w fr (new m (Option.mem_toList.mp hm))]
    rfl
  rw [NamedBlocks.reassemble, entries_eq_map_keys nd [], flatMap_map, keys, flatMap_append, front,
    c.keys_result w]
  simp [target, Table.keys, flatMap_map, twin, copyForm]

variable {V W : Type} {M : Meaning V W} (cv : Convertible f)
  (fits : c.Fits c.copyScheme vs (copyForm t' final))

omit wk w new fr ds in
include cv in
/-- The parameters have their values, and are their own versions. -/
lemma start_copies {vals : List V} {e e' : Env V} (len : f.params.length = vals.length)
    (he : e = bindParams f.params vals) (he' : e' = bindParams f.params vals) :
    Agree c.Version (inForceBy c.start.versions) e e' ∧
      Defined c.copyScheme (inForceBy c.start.versions) e := by
  subst he he'
  refine ⟨c.agree_params cv vals, fun _ x n hn => exists_bindParams len ?_⟩
  have hmem : some x ∈ f.params.map Param.name := by
    rw [c.map_name_params]
    exact mem_map_of_mem (c.inForceBy_start.mp hn).1
  exact mem_map.mp hmem

omit fr ds in
include cv fits in
/-- The blocks with copies run as the blocks did, maybe behind a new entry. -/
lemma follows_copies {vals : List V} {s u : State V W} (len : f.params.length = vals.length)
    (he : s.env = bindParams f.params vals) (he' : u.env = bindParams f.params vals)
    (hw : s.world = u.world) (hs : s.rest = c.lead o ++ c.blocks.reassemble)
    (hu : u.rest = c.lead o ++ target (c.blocks.entries.map (twin vs (copyForm t' final)))) :
    Follows M (c.lead o ++ c.blocks.reassemble)
      (c.lead o ++ target (c.blocks.entries.map (twin vs (copyForm t' final))))
      (Stuck c.copyScheme) [] s u := by
  have twins := c.versioned_twins wk w cv fits
  have key : ∀ {n}, c.Live n → n ∈ c.blocks.keys := fun hn => by
    rw [← c.succ_spec.1]
    exact (c.computed (c.entryFree wk)).nodes _ hn
  -- No block that control gets to names the new entry.
  have unnamed : ∀ m ∈ o, ∀ d ∈ c.blocks.entries.map (twin vs (copyForm t' final)),
      c.liveTwin d → ∀ i ∈ d.code, i.Branches → m ∉ i.labels.getD [] := by
    refine fun m hm => forall_mem_map.mpr fun e he lv i hi hbr hl => ?_
    have edge : c.succ.Edge e.1 m :=
      (c.edge_iff wk).mpr ⟨e.2, get?_of_mem c.nodup_keys he, i, hi, hbr, hl⟩
    exact new m hm (key ((c.live_of_liveTwin lv).step edge))
  obtain ⟨b, bs, hb, live, label, phis, start, unique⟩ := c.twins_eq_cons wk w (copyForm t' final)
  obtain ⟨agree, defined⟩ := c.start_copies cv len he he'
  rw [← start] at agree defined
  rw [← c.source_twins vs (copyForm t' final)] at hs ⊢
  rw [hb] at twins unnamed hs hu ⊢
  cases o with
  | none => exact twins.follows live phis agree defined hw hs hu
  | some m =>
    have ne : m ≠ c.entry := fun e => new m rfl (e ▸ key .root)
    exact (twins.prepend live phis label unique (unnamed m rfl) ne).follows (.inl rfl) rfl agree
      defined hw hs hu

include cv fits in
lemma follows_dissolved :
    ∃ names : List String, names.length ≤ 3 ∧ (∀ i ∈ c.body, ∀ l, i.label = some l → l ∉ names) ∧
      ∀ {V W : Type} (M : Meaning V W) (args : List V) (world : W), f.params.length = args.length →
        Follows M c.body t'.reassemble (Stuck c.copyScheme) (names.map .enter) (f.start args world)
          ((f.withBody t'.reassemble).start args world) := by
  obtain ⟨hne, d, hd, ns, ex⟩ := wk.explicit c.blocks_eq
  obtain ⟨d', hd', ns', ex⟩ : ∃ d ≤ 2, ∃ ns,
      NamedBlocks.Explicit c.body (replicate d [] ++ Block.split c.body) (c.led o c.blocks) ns := by
    cases o with
    | none => exact ⟨d, by omega, ns, ex⟩
    | some m => exact ⟨d + 1, by omega, m :: ns, ex.lead (new m rfl) c.entry_eq_head⟩
  obtain ⟨names, short, fresh, runs⟩ := ex.runs rfl hne
  refine ⟨names, by omega, fresh, fun M args world len => ?_⟩
  rw [reassemble_led] at runs
  have laid := (runs M (s := f.start args world)
    (u := { f.start args world with rest := c.lead o ++ c.blocks.reassemble })
    rfl rfl rfl rfl c.body_getD rfl).1 wk.phiFree
  rw [c.reassemble_dissolved wk w new fr ds final]
  refine laid.trans (c.follows_copies wk w new cv fits len ?_ ?_ ?_ ?_ ?_)
  all_goals rfl

end Frames

end Conversion

end Ssa

end BrilKit
