import BrilKit.Proofs.Ssa.Convert

/-!
# Where versions take the place of variables

Main statement: in a block that control reaches, an operand to which an assignment of its variable
gets is replaced by a version that has a value in the converted function.
-/

namespace BrilKit

open List Outcome

/-- A name that an instruction of the function assigns or that is a parameter. -/
def Func.Binds (f : Func) (x : String) : Prop :=
  (∃ i ∈ f.instrs.getD [], i.dest = some x) ∨ ∃ p ∈ f.params, p.name = some x

namespace Ssa

open FlowGraph

/-- An assignment of the variable gets to a place in a block: from further up in the block, or over
edges from a block that control reaches. -/
def Reached (g : FlowGraph) (k : Nat) (done : Block) (x : String) : Prop :=
  (∃ i ∈ done, i.dest = some x) ∨
    ∃ d n, Carried g (fun _ => False) d k ∧ g[d]? = some n ∧ ∃ i ∈ n.block, i.dest = some x

/-- What becomes of a block: behind its label there are phis and then its code, in which operands
that assignments get to are versions. -/
def Renamed (f : Func) (g : FlowGraph) (k : Nat) (b b' : Block) : Prop :=
  ∃ head code phis renamed, b = head :: code ∧ b' = head :: (phis ++ renamed) ∧
    (∀ p ∈ phis, p.op = some "phi") ∧ renamed.length = code.length ∧
    ∀ done i todo, code = done ++ i :: todo → ∃ done' i' todo', renamed = done' ++ i' :: todo' ∧
      done'.length = done.length ∧ i'.shape = i.shape ∧
      Forall₂ (fun x x' => Reached g k done x → IsVersion x x' ∧ f.Binds x') i.uses i'.uses

variable {f f' : Func} {g : FlowGraph} {bs blocks : List Block} {b code renamed done todo : Block}
  {i : Instr} {k d : Nat} {x v : String} {ν final : Naming} {σ : Scheme}

lemma Naming.exists_after (h : ν x v) : ∃ v, ν.after b x v := by
  cases hl : lastOf x b with
  | some d => exact ⟨d, (after_of_lastOf hl).mpr rfl⟩
  | none => exact ⟨v, (after_of_none hl).mpr h⟩

lemma Naming.cases_after (h : ν.after b x v) : ν x v ∨ lastOf x b = some v := by
  cases hl : lastOf x b with
  | some d => exact .inr (congrArg some ((after_of_lastOf hl).mp h).symm)
  | none => exact .inl ((after_of_none hl).mp h)

/-- An assignment brings a version along every way: its own, or one that is assigned on the way. -/
lemma exists_arriving (len : bs.length = g.length) (way : Carried g (fun _ => False) d k)
    (assigned : Assigns bs x d) : ∃ v, arriving g bs k x v := by
  induction way with
  | edge live e =>
    obtain ⟨b, v, hb, hv⟩ := assigned
    refine ⟨v, arriving_of_leaving live e ?_⟩
    rw [leaving_eq hb]
    exact (Naming.after_of_lastOf hv).mpr rfl
  | @step p k way _ e ih =>
    have hp : p < bs.length := by
      obtain ⟨n, hn, _⟩ := e
      exact len ▸ lt_of_getElem? hn
    obtain ⟨v, hv⟩ := ih
    obtain ⟨v, hv⟩ := Naming.exists_after (b := bs[p]) hv
    rw [← leaving_eq (getElem?_eq_getElem hp)] at hv
    exact ⟨v, arriving_of_leaving way.live e hv⟩

lemma Renames.length_eq (lax : ¬ σ.strict) (h : Renames σ ν code renamed (some final)) :
    renamed.length = code.length := by
  generalize hf : some final = o at h
  induction h with
  | nil => rfl
  | cons _ _ _ ih => rw [length_cons, length_cons, ih hf]
  | copy strict => exact absurd strict lax
  | stuck => cases hf
  | ruined => cases hf

/-- The names in force at a place in renamed code: those at its start, and the results further up. -/
lemma Renames.place (lax : ¬ σ.strict) (h : Renames σ ν code renamed (some final))
    (pr : ν.Proper σ.Version) (hc : code = done ++ i :: todo) :
    ∃ done' i' todo' μ, renamed = done' ++ i' :: todo' ∧
      done'.length = done.length ∧ i'.shape = i.shape ∧
      Forall₂ (Reads σ.Version μ) i.uses i'.uses ∧ μ.Proper σ.Version ∧
      (∀ x, (∃ v, ν x v) ∨ (∃ j ∈ done, j.dest = some x) → ∃ v, μ x v) ∧
      ∀ x v, μ x v → ν x v ∨ ∃ j ∈ done', j.dest = some v := by
  generalize hf : some final = o at h
  induction h generalizing done with
  | nil => simp at hc
  | copy strict => exact absurd strict lax
  | stuck => cases hf
  | ruined => cases hf
  | @cons ν ν' j j' is is' _ r _ _ ih =>
    cases done with
    | nil =>
      obtain ⟨rfl, rfl⟩ := List.cons.inj hc
      exact ⟨[], j', is', ν, rfl, rfl, r.shape, r.uses, pr,
        fun x hx => hx.resolve_right (by simp), fun _ _ => .inl⟩
    | cons a done =>
      obtain ⟨rfl, rest⟩ := List.cons.inj hc
      obtain ⟨done', i', todo', μ, rfl, len, shape, uses, pr', kept, sound⟩ := ih (r.proper pr) rest hf
      refine ⟨j' :: done', i', todo', μ, rfl, by simp [len], shape, uses, pr',
        fun x hx => kept x ?_, fun x v hv => ?_⟩
      · obtain ⟨e, rfl⟩ | ⟨y, m, e, e', _, rfl⟩ := r.dest
        · simpa [e] using hx
        · by_cases same : x = y
          · exact .inl ⟨m, same ▸ Naming.set_same.mpr rfl⟩
          · simpa [Naming.set_other same, e, Ne.symm same] using hx
      · obtain hv | ⟨c, mem, hv⟩ := sound x v hv
        · obtain ⟨e, rfl⟩ | ⟨y, m, e, e', _, rfl⟩ := r.dest
          · exact .inl hv
          · by_cases same : x = y
            · subst same
              rw [Naming.set_same.mp hv]
              exact .inr ⟨j', by simp, e'⟩
            · exact .inl ((Naming.set_other same).mp hv)
        · exact .inr ⟨c, by simp [mem], hv⟩

section Stages

variable {s : DomState} {ps : List Param} {copies is : List Instr}
  {first : Instr}

/-- A version that a block assigns is assigned in the result, or it is the name of a parameter. -/
lemma Stages.result (sg : Stages f f' g s bs blocks ps copies first is) (vf : Versionable f)
    (params : (f.params.map Param.name).Nodup) :
    f'.instrs = some (blocks.set 0 [.labelled "dummy_entry"]).flatten ∧
      ∀ (d : Nat) b x v, bs[d]? = some b → lastOf x b = some v → f'.Binds v := by
  obtain ⟨n, hn, hblock⟩ := sg.root
  obtain ⟨code, hfirst, copy, leaves⟩ := first_block vf params sg.labelled sg.numbered sg.rooted
    sg.settled sg.flowed hn hblock
  obtain ⟨ps', hps', rfl⟩ := finish_eq_ok hn (by simp [Node.label, hblock, Instr.labelled])
    sg.labelled.args hfirst copy sg.finished
  refine ⟨rfl, fun d b x v hb hv => ?_⟩
  cases d with
  | succ d =>
    have hd : d + 1 < blocks.length := sg.flowed.length ▸ lt_of_getElem? hb
    have hb' := List.getElem?_eq_getElem hd
    rw [← (sg.flowed.linked _ _ _ hb hb').lastOf_eq] at hv
    obtain ⟨_, i, hi, hv⟩ := exists_of_lastOf hv
    refine .inl ⟨i, mem_flatten.mpr ⟨blocks[d + 1], mem_of_getElem? (i := d + 1) ?_, hi⟩, hv⟩
    rw [getElem?_set_ne (by omega), hb']
  | zero =>
    -- The first block has no phis, and its copies are those of the parameters.
    have ud := undotted_graph vf sg.labelled
    obtain ⟨i, is, phis, is', pp⟩ := sg.numbered.prepared ud hn hb
    obtain hphi | ⟨j, hj, hx⟩ := pp.assigns hv
    · exact absurd ⟨b, hb, hphi⟩ (not_hasPhi_root sg.numbered sg.rooted sg.settled hn)
    obtain ⟨-, rfl⟩ := List.cons.inj (hblock.symm.trans pp.source)
    obtain ⟨p, hp, y, t, hy, rfl⟩ := mem_copies sg.labelled.copied (mem_reverse.mp hj)
    obtain rfl : y = x := Option.some.inj hx
    obtain ⟨p', hp', z, w, hz, hw, last⟩ := exists_of_mem_right hps'.flip hp
    obtain rfl : y = z := Option.mem_unique hy hz
    have leave : leaving g bs 0 y v := by
      rw [leaving_eq hb]
      exact (Naming.after_of_lastOf hv).mpr rfl
    obtain rfl : w = v := Option.some.inj (last.symm.trans ((leaves y v).mp leave))
    exact .inr ⟨p', hp', hw⟩

end Stages

/-- The conversion of a function with parameters of different names takes every block that control
reaches into account. -/
theorem convert_renamed (vf : Versionable f) (params : (f.params.map Param.name).Nodup)
    {order : SiteOrder} (h : convertBy order .iterative f = .ok f') :
    ∃ (g : FlowGraph) (bs : List Block),
      f.labelledGraph .looping true = .ok g ∧ f'.instrs = some bs.flatten ∧ bs.length = g.length ∧
      bs.head? = some [.labelled "dummy_entry"] ∧
      ∀ (k : Nat) n b, 0 < k → g.Live k → g[k]? = some n → bs[k]? = some b →
        Renamed f' g k n.block b := by
  obtain ⟨g, s, bs, blocks, ps, copies, first, is, sg⟩ := exists_stages vf h
  obtain ⟨x, ph⟩ := sg.phased
  obtain ⟨instrs, binds⟩ := sg.result vf params
  have ud := undotted_graph vf sg.labelled
  have size : blocks.length = g.length := sg.flowed.length.trans ph.length
  refine ⟨g, _, sg.graph, instrs, by simpa using size, ?_, fun k n b pos live hn hb => ?_⟩
  · obtain ⟨n, hn, _⟩ := sg.root
    have pos : 0 < blocks.length := size ▸ lt_of_getElem? hn
    simp [head?_eq_getElem?, pos]
  have bound : ∀ j ∈ b, ∀ v, j.dest = some v → f'.Binds v := by
    intro j hj v hv
    refine .inl ⟨j, ?_, hv⟩
    rw [instrs]
    exact mem_flatten.mpr ⟨b, mem_of_getElem? hb, hj⟩
  rw [getElem?_set_ne (by omega)] at hb
  obtain ⟨t, fits, hcode, hb', start, phis⟩ := exists_twin sg.numbered ph ud
    (twinnable_graph vf sg.labelled) (distinctLabels sg.labelled) sg.flowed hn
  obtain rfl := Option.mem_unique hb hb'
  have renames := fits.final ▸ fits.renames live
  refine ⟨t.head, t.code, t.phis, t.renamed, hcode, rfl, phis, renames.length_eq id, ?_⟩
  intro done i todo hc
  obtain ⟨done', i', todo', μ, hr, len, shape, uses, pr, kept, sound⟩ :=
    renames.place id fits.proper hc
  refine ⟨done', i', todo', hr, len, shape, uses.imp fun x x' reads reached => ?_⟩
  -- A version is in force, so the operand is one.
  have inForce : ∃ v, μ x v := by
    refine kept x ?_
    obtain above | ⟨d, m, way, hm, j, hj, hd⟩ := reached
    · exact .inr above
    · have hb := getElem?_eq_getElem (ph.length ▸ lt_of_getElem? hm)
      obtain ⟨_, _, _, _, pp⟩ := sg.numbered.prepared ud hm hb
      obtain ⟨v, hv⟩ := pp.exists_lastOf hj hd
      obtain ⟨v, hv⟩ := exists_arriving ph.length way ⟨_, v, hb, hv⟩
      exact .inl (start ▸ Naming.exists_after hv)
  obtain hx | ⟨lacks, _⟩ := reads
  · refine ⟨pr x x' hx, ?_⟩
    obtain hx | ⟨j, hj, hd⟩ := sound x x' hx
    · rw [start] at hx
      obtain ⟨d, b, hb, hv, _⟩ | hv := Naming.cases_after hx
      · exact binds d b x x' hb hv
      · obtain ⟨_, p, hp, hd⟩ := exists_of_lastOf hv
        exact bound p (by simp [hp]) x' hd
    · exact bound j (by simp [hr, hj]) x' hd
  · obtain ⟨v, hv⟩ := inForce
    exact absurd hv (lacks v)

theorem convert_renamed_countdown : ∃ (f : Func) (g : FlowGraph) (bs : List Block),
    convert .iterative .countdown = .ok f ∧ f.instrs = some bs.flatten ∧ bs.length = 4 ∧
      ∀ (k : Nat) n b, 0 < k → g.Live k → g[k]? = some n → bs[k]? = some b →
        Renamed f g k n.block b := by
  obtain ⟨f, h⟩ : ∃ f, convert .iterative .countdown = .ok f := exists_of_isOk (by cbv)
  obtain ⟨g, bs, hg, instrs, len, _, all⟩ :=
    convert_renamed versionable_countdown (by decide) h
  refine ⟨f, g, bs, h, instrs, ?_, all⟩
  cases hg
  exact len

/-- Has no parameters, so that the block of copies assigns nothing. -/
def bareStart : Func where
  name := some "main"
  args := some []
  instrs := some [
    Sample.whole "x" 1,
    Sample.effect "print" ["x"]]

/-- No version gets beyond a first block that assigns nothing. -/
theorem convert_bareStart : convert .iterative bareStart = .ok { bareStart with
    instrs := some [.labelled "dummy_entry", .labelled "entry",
      Sample.whole "x.1" 1,
      Sample.effect "print" ["x"]] } := by
  cbv

end Ssa

end BrilKit
