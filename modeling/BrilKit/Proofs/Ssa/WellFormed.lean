import BrilKit.Proofs.Ssa.Distinct

/-!
# Definitions dominate uses

At a visit of the walk every version in force is a parameter or is assigned in a block that
dominates the one visited: what is in force on arrival comes from the end of the parent in the
dominator tree.
-/

namespace BrilKit

open List Outcome Table

namespace Ssa

open Dominators Renaming

variable {params : List String} {succ : FlowMap} {r n x : String} {t : NamedBlocks}

/-- The variables that a block assigns to. -/
def assigned (t : NamedBlocks) (n : String) : List String := (t.getD n []).filterMap Instr.dest

lemma mem_assigned : x ∈ assigned t n ↔ ∃ b, t.get? n = some b ∧ ∃ i ∈ b, i.dest = some x := by
  cases h : t.get? n with
  | none => simp [assigned, Table.getD, h]
  | some b => simp [assigned, Table.getD, h]

/-- A parameter, or a variable that is assigned in a block that dominates the given one. -/
def KnownBehind (params : List String) (succ : FlowMap) (r : String) (t : NamedBlocks)
    (n x : String) : Prop :=
  x ∈ params ∨ ∃ d, x ∈ assigned t d ∧ Dominates succ.Edge r d n

/-- A parameter, or a variable that is assigned in a block that strictly dominates the given one. -/
def KnownBefore (params : List String) (succ : FlowMap) (r : String) (t : NamedBlocks)
    (n x : String) : Prop :=
  x ∈ params ∨ ∃ d, x ∈ assigned t d ∧ d ≠ n ∧ Dominates succ.Edge r d n

lemma KnownBefore.behind (h : KnownBefore params succ r t n x) :
    KnownBehind params succ r t n x := by
  obtain h | ⟨d, hd, _, dom⟩ := h
  · exact .inl h
  · exact .inr ⟨d, hd, dom⟩

lemma KnownBehind.below {p : String} (h : KnownBehind params succ r t p x)
    (dom : Dominates succ.Edge r p n) (hne : n ≠ p) : KnownBefore params succ r t n x := by
  obtain h | ⟨d, hd, above⟩ := h
  · exact .inl h
  · refine .inr ⟨d, hd, ?_, above.trans dom⟩
    rintro rfl
    exact hne (above.antisymm dom)

/-- Well-formed blocks in single-assignment form, by the edges between them. -/
structure WellFormed (params : List String) (succ : FlowMap) (r : String) (t : NamedBlocks) :
    Prop where
  /-- Every variable is assigned once. -/
  once : (t.reassemble.filterMap Instr.dest).Nodup
  /-- No parameter is assigned. -/
  unassigned : ∀ x ∈ params, ∀ n, x ∉ assigned t n
  /-- Definitions come before uses in a block, or strictly dominate them. -/
  uses : ∀ n done i todo, t.get? n = some (done ++ i :: todo) → i.op ≠ some "phi" → ∀ x ∈ i.uses,
    KnownBefore params succ r t n x ∨ ∃ j ∈ done, j.dest = some x
  /-- A phi has one operand for each edge to its block. -/
  edges : ∀ n b, t.get? n = some b → ∀ i ∈ b, i.op = some "phi" →
    (i.labels.getD []).length = i.uses.length ∧
      ∀ l, (i.labels.getD []).count l = (succ.getD l []).count n
  /-- Definitions of operands dominate the blocks that the operands come from. -/
  operands : ∀ n b, t.get? n = some b → ∀ i ∈ b, i.op = some "phi" →
    ∀ o ∈ (i.labels.getD []).zip i.uses,
      o.2 = undefinedName ∨ KnownBehind params succ r t o.1 o.2

lemma count_handing {phis : FlowMap} {vs : List Visit} {l : String} (hx : x ∈ phis.getD n []) :
    ((vs.flatMap fun u => u.handing phis succ n x).map Prod.fst).count l =
      vs.countP (fun u => u.block == l) * (succ.getD l []).count n := by
  induction vs with
  | nil => simp
  | cons u vs ih =>
    rw [flatMap_cons, map_append, count_append, ih, countP_cons]
    by_cases hl : u.block = l
    · subst hl
      simp [Visit.handing, hx, Nat.add_mul, Nat.add_comm]
    · simp [Visit.handing, hx, hl, count_replicate]

namespace Conversion

variable {f : Func} (c : Conversion f)

lemma paramNames_eq : paramNames f = c.args := by
  have names : paramNames f = (f.params.map Param.name).filterMap id := by
    rw [filterMap_map]
    rfl
  rw [names, c.map_name_params, filterMap_map]
  exact filterMap_some

lemma mem_assigned_result {b : Block} (hb : c.state.blocks.get? n = some b) :
    x ∈ assigned c.result n ↔ ∃ i ∈ c.phisOf n ++ b, i.dest = some x := by
  rw [mem_assigned]
  constructor
  · rintro ⟨b', hb', hx⟩
    obtain ⟨b'', hb'', rfl⟩ := c.get?_result.mp hb'
    obtain rfl : b = b'' := Option.mem_unique hb hb''
    exact hx
  · exact fun hx => ⟨_, c.get?_result.mpr ⟨b, hb, rfl⟩, hx⟩

abbrev Before (n x : String) : Prop := KnownBefore c.args c.succ c.entry c.result n x

abbrev After (n x : String) : Prop := KnownBehind c.args c.succ c.entry c.result n x

section Visits

variable {vs : List Visit} (w : c.Visits vs) {u : Visit}
include w

lemma start_known (on : Walk.Once c.phis c.start c.state n u)
    (before : ∀ x m, inForceBy u.before x m → c.Before n m) {m : String}
    (hm : inForceBy u.start x m) : c.Before n m ∨ ∃ j ∈ c.phisOf n, j.dest = some m := by
  have hkey : n ∈ c.state.blocks.keys := mem_keys.mpr ⟨_, on.left⟩
  by_cases hx : x ∈ c.phis.getD n []
  · obtain ⟨k, hk, hr⟩ := on.merged x hx
    obtain ⟨i, hi, isPhi⟩ := c.exists_phi w hkey hx
    obtain rfl : m = versionOf x k := Option.mem_unique hm hk
    exact .inr ⟨i, hi, isPhi.dest.trans hr⟩
  · rw [inForceBy, on.carried x hx] at hm
    exact .inl (before x m hm)

/-- What the code of a block reads, and what is in force at its end. -/
lemma visit_known (hlive : c.Live n) (on : Walk.Once c.phis c.start c.state n u)
    (before : ∀ x m, inForceBy u.before x m → c.Before n m) :
    (∀ done i todo, u.renamed = done ++ i :: todo → ∀ m ∈ i.uses,
      c.Before n m ∨ ∃ j ∈ c.phisOf n ++ done, j.dest = some m) ∧
    ∀ x m, inForceBy u.final x m → c.After n m := by
  obtain ⟨s₁, s₂, h₁, h₂, hi⟩ := on.instrs
  obtain ⟨uses, final⟩ := instrs_scope hi
  rw [h₁] at uses final
  rw [h₂] at final
  refine ⟨fun done i todo e m hm => ?_, fun x m hm => ?_⟩
  · obtain ⟨x, hx⟩ | ⟨j, hj, hd⟩ := uses done i todo e m hm
    · obtain known | ⟨j, hj, hd⟩ := c.start_known w on before hx
      · exact .inl known
      · exact .inr ⟨j, by simp [hj], hd⟩
    · exact .inr ⟨j, by simp [hj], hd⟩
  · have here : ∀ j ∈ c.phisOf n ++ u.renamed, j.dest = some m → c.After n m := fun j hj hd =>
      .inr ⟨n, (c.mem_assigned_result on.left).mpr ⟨j, hj, hd⟩, .refl hlive⟩
    obtain hx | ⟨j, hj, hd⟩ := final x m hm
    · obtain known | ⟨j, hj, hd⟩ := c.start_known w on before hx
      · exact known.behind
      · exact here j (by simp [hj]) hd
    · exact here j (by simp [hj]) hd

variable (free : c.EntryFree)
include free

lemma before_known (hu : u ∈ vs) (hlive : c.Live u.block) (x m : String)
    (hm : inForceBy u.before x m) : c.Before u.block m := by
  have cp := c.computed free
  induction w.rooted u hu generalizing x m with
  | root _ _ hb =>
    rw [hb] at hm
    obtain ⟨hx, rfl⟩ := c.inForceBy_start.mp hm
    exact .inl hx
  | @child p u hp hu hc hb ih =>
    have hlive' : c.Live p.block := cp.reach_of_child c.nodup_succ c.tree_eq hc
    obtain ⟨dom, hne, _⟩ := cp.parent_spec c.nodup_succ c.tree_eq hlive hc
    obtain ⟨v, hv, on⟩ := c.exists_visit free w hlive'
    obtain rfl := c.visit_unique free w hv hp.mem on.block hlive'
    rw [hb] at hm
    exact ((c.visit_known w hlive' on (ih hp.mem hlive')).2 x m hm).below dom hne

lemma handed_known (hu : u ∈ vs) (hlive : c.Live u.block) :
    handed u.final x = undefinedName ∨ c.After u.block (handed u.final x) := by
  obtain ⟨v, hv, on⟩ := c.exists_visit free w hlive
  obtain rfl := c.visit_unique free w hv hu on.block hlive
  cases h : v.final.getD x [] with
  | nil => exact .inl (by rw [handed, h]; rfl)
  | cons m ms =>
    have hm : handed v.final x = m := by rw [handed, h]; rfl
    have force : inForceBy v.final x m := by rw [inForceBy, h]; rfl
    rw [hm]
    exact .inr ((c.visit_known w hlive on (c.before_known w free hu hlive)).2 x m force)

lemma version_of_assigned (hlive : c.Live n) (h : x ∈ assigned c.result n) :
    ∃ d k, c.Assigned d ∧ x = versionOf d k := by
  obtain ⟨u, hu, on⟩ := c.exists_visit free w hlive
  obtain ⟨i, hi, hd⟩ := (c.mem_assigned_result on.left).mp h
  obtain hi | hi := mem_append.mp hi
  · obtain ⟨y, hy, isPhi⟩ := c.exists_isPhi w (mem_keys.mpr ⟨_, on.left⟩) hi
    obtain ⟨k, _, hr⟩ := on.merged y hy
    rw [isPhi.dest, hr] at hd
    exact ⟨y, k, (c.phi_sound free hy).1, (Option.some.inj hd).symm⟩
  · obtain ⟨s₁, s₂, _, _, hins⟩ := on.instrs
    obtain ⟨j, hj, d, k, hjd, e⟩ := instrs_dests hins hi hd
    exact ⟨d, k, c.assigned_of_mem on.found hj hjd, e⟩

end Visits

section Result

variable {vs : List Visit} (w : c.Visits vs) {b : Block} {i : Instr}
include w

lemma renamed_ne_phi (phiFree : ∀ i ∈ c.body, i.op ≠ some "phi")
    (hb : c.state.blocks.get? n = some b) (hi : i ∈ b) : i.op ≠ some "phi" := by
  obtain ⟨b₀, hb₀, shapes⟩ := w.shapes hb
  have hmem : i.shape ∈ b.map Instr.shape := mem_map_of_mem hi
  rw [shapes] at hmem
  obtain ⟨j, hj, e⟩ := mem_map.mp hmem
  rw [Instr.op_of_shape e.symm]
  obtain hj | on := NamedBlocks.mem_explicit c.blocks_eq hb₀ hj
  · exact phiFree j hj
  · obtain ⟨_, _, _, op, ho, hne⟩ := on.op
    rw [ho]
    exact fun e => hne (Option.some.inj e)

lemma isPhi_of_op (phiFree : ∀ i ∈ c.body, i.op ≠ some "phi") (hb : c.result.get? n = some b)
    (hi : i ∈ b) (hop : i.op = some "phi") : ∃ x ∈ c.phis.getD n [], c.IsPhi n x i := by
  obtain ⟨b', hb', rfl⟩ := c.get?_result.mp hb
  obtain hi | hi := mem_append.mp hi
  · exact c.exists_isPhi w (mem_keys.mpr ⟨b', hb'⟩) hi
  · exact absurd hop (c.renamed_ne_phi w phiFree hb' hi)

lemma code_of_op {done todo : Block} (hb : c.result.get? n = some (done ++ i :: todo))
    (hop : i.op ≠ some "phi") :
    ∃ before, done = c.phisOf n ++ before ∧ c.state.blocks.get? n = some (before ++ i :: todo) := by
  obtain ⟨b', hb', e⟩ := c.get?_result.mp hb
  obtain ⟨as, hp, hb''⟩ | ⟨as, hd, rfl⟩ := append_eq_append_iff.mp e
  · cases as with
    | nil =>
      obtain rfl : i :: todo = b' := hb''
      exact ⟨[], by simpa using hp.symm, hb'⟩
    | cons j as =>
      obtain ⟨rfl, _⟩ := List.cons.inj hb''
      have hi : i ∈ c.phisOf n := by simp [hp]
      obtain ⟨_, _, isPhi⟩ := c.exists_isPhi w (mem_keys.mpr ⟨b', hb'⟩) hi
      exact absurd isPhi.op hop
  · exact ⟨as, hd, hb'⟩

lemma exits_result {b₀ : Block} {ls : List String} (hb : c.result.get? n = some b)
    (hb₀ : c.blocks.get? n = some b₀) (h : NamedBlocks.exits b₀ = .ok ls) :
    NamedBlocks.exits b = .ok ls := by
  obtain ⟨b', hb', rfl⟩ := c.get?_result.mp hb
  obtain ⟨b₁, hb₁, shapes⟩ := w.shapes hb'
  obtain rfl : b₀ = b₁ := Option.mem_unique hb₀ hb₁
  have last : b'.getLast?.map Instr.shape = b₀.getLast?.map Instr.shape := by
    rw [← getLast?_map, ← getLast?_map, shapes]
  unfold NamedBlocks.exits at h ⊢
  split at h
  · cases h
  · next i hi =>
    rw [hi, Option.map_some] at last
    obtain ⟨i', hi', e⟩ := Option.map_eq_some_iff.mp last
    rw [getLast?_append, hi', Option.some_or]
    dsimp only
    rw [← h, NamedBlocks.targets, NamedBlocks.targets, Instr.getOp, Instr.getOp, Instr.getLabels,
      Instr.getLabels, Instr.op_of_shape e, Instr.labels_of_shape e]

/-- The edges between the blocks of the result are those between the blocks. -/
lemma successors_result : c.result.successors = .ok c.succ := by
  have keys := c.keys_result w
  have exits : ∀ n b, c.result.get? n = some b →
      ∃ ls, NamedBlocks.exits b = .ok ls ∧ c.succ.get? n = some ls := by
    intro n b hb
    have hn : n ∈ c.blocks.keys := keys ▸ mem_keys.mpr ⟨b, hb⟩
    obtain ⟨b₀, hb₀⟩ := mem_keys.mp hn
    obtain ⟨ls, hls, hget⟩ := c.succ_spec.2 n b₀ hb₀
    exact ⟨ls, c.exits_result w hb hb₀ hls, hget⟩
  have nd : c.result.keys.Nodup := keys ▸ c.nodup_keys
  have each : ∀ e ∈ c.result.entries,
      ∃ e', (do return (e.1, ← NamedBlocks.exits e.2) : Outcome (String × List String)) = .ok e' := by
    intro e he
    obtain ⟨ls, hls, _⟩ := exits e.1 e.2 (get?_of_mem nd he)
    exact ⟨_, ok_bind hls rfl⟩
  obtain ⟨es, hes⟩ := mapM_total each
  have hsucc : c.result.successors = .ok ⟨es⟩ := ok_bind hes rfl
  obtain ⟨keys', exits'⟩ := NamedBlocks.successors_spec hsucc
  rw [hsucc]
  refine congrArg _ (eq_of_get? [] c.nodup_succ ?_ fun n hn => ?_)
  · rw [keys', keys, c.succ_spec.1]
  · obtain ⟨b, hb⟩ := mem_keys.mp (keys ▸ c.succ_spec.1 ▸ hn)
    obtain ⟨ls, hls, hget⟩ := exits n b hb
    obtain ⟨ls', hls', hget'⟩ := exits' n b hb
    rw [hget, hget', Except.ok.inj (hls.symm.trans hls')]

lemma entry_result : c.result.entry = .ok c.entry := by
  have h := c.entry_eq
  rwa [NamedBlocks.entry, ← c.keys_result w] at h

lemma count_operands (free : c.EntryFree) (live : ∀ n ∈ c.blocks.keys, c.Live n)
    (hx : x ∈ c.phis.getD n []) (l : String) :
    ((c.state.operands n x).map Prod.fst).count l = (c.succ.getD l []).count n := by
  rw [w.operands_eq, start_operands, nil_append, count_handing hx]
  by_cases hl : l ∈ c.blocks.keys
  · rw [c.count_visits free w (live l hl), Nat.one_mul]
  · have none : c.succ.getD l [] = [] := by
      rw [Table.getD, get?_eq_none.mpr (c.succ_spec.1 ▸ hl), Option.getD_none]
    rw [none, count_nil, Nat.mul_zero]

/-- The result is well-formed if control can get to all blocks. -/
theorem wellFormed_result (free : c.EntryFree) (phiFree : ∀ i ∈ c.body, i.op ≠ some "phi")
    (live : ∀ n ∈ c.blocks.keys, c.Live n)
    (unversioned : ∀ x ∈ c.args, ∀ d, c.Assigned d → ∀ k, x ≠ versionOf d k) :
    WellFormed c.args c.succ c.entry c.result := by
  have keys : ∀ {n b}, c.result.get? n = some b → n ∈ c.blocks.keys := fun hb =>
    c.keys_result w ▸ mem_keys.mpr ⟨_, hb⟩
  have visited : ∀ u ∈ vs, c.Live u.block := fun u hu => live u.block (w.visited u hu)
  refine ⟨c.nodup_dests w free, fun x hx n h => ?_, fun n done i todo hb hop x hx => ?_,
    fun n b hb i hi hop => ?_, fun n b hb i hi hop o ho => ?_⟩
  · obtain ⟨b, hb, _⟩ := mem_assigned.mp h
    obtain ⟨d, k, hd, rfl⟩ := c.version_of_assigned w free (live n (keys hb)) h
    exact unversioned _ hx d hd k rfl
  · obtain ⟨before, rfl, hcode⟩ := c.code_of_op w hb hop
    have hlive := live n (keys hb)
    obtain ⟨u, hu, on⟩ := c.exists_visit free w hlive
    obtain rfl := on.block
    have renamed : u.renamed = before ++ i :: todo := Option.mem_unique on.left hcode
    have known := c.before_known w free hu hlive
    exact (c.visit_known w hlive on known).1 before i todo renamed x hx
  · obtain ⟨x, hx, isPhi⟩ := c.isPhi_of_op w phiFree hb hi hop
    rw [isPhi.labels, Instr.uses, isPhi.args]
    exact ⟨by simp, c.count_operands w free live hx⟩
  · obtain ⟨x, hx, isPhi⟩ := c.isPhi_of_op w phiFree hb hi hop
    have zip : (i.labels.getD []).zip i.uses = c.state.operands n x := by
      rw [isPhi.labels, Instr.uses, isPhi.args]
      exact (zip_of_prod rfl rfl).symm
    rw [zip, w.operands, start_operands] at ho
    obtain ⟨v, hv, _, _, rfl⟩ := ho.resolve_left (by simp)
    exact c.handed_known w free hv (visited v hv)

end Result

end Conversion

/-- A function without phis whose blocks control can all get to is turned into well-formed
single-assignment form with the same edges between its blocks, if no parameter is named like a
version and no jump or branch uses the name that a new first block gets. -/
theorem enter_wellFormed {f g : Func} {t : NamedBlocks} {succ : FlowMap} {r : String}
    (ht : NamedBlocks.explicit (f.instrs.getD []) = .ok t) (hs : t.successors = .ok succ)
    (hr : t.entry = .ok r) (phiFree : ∀ i ∈ f.instrs.getD [], i.op ≠ some "phi")
    (reached : ∀ n ∈ t.keys, Reach succ.Edge r n)
    (unversioned : ∀ x ∈ paramNames f, ∀ i ∈ f.instrs.getD [], ∀ d, i.dest = some d →
      ∀ k, x ≠ versionOf d k)
    (un : NamedBlocks.EntryUnnamed (f.instrs.getD [])) (h : enter f = .ok g) :
    ∃ u : NamedBlocks, g.instrs = some u.reassemble ∧ u.successors = .ok succ ∧
      u.entry = .ok r ∧ WellFormed (paramNames g) succ r u := by
  obtain ⟨c, rfl⟩ := enter_conversion h
  obtain ⟨vs, w⟩ := c.exists_visits
  rw [c.body_getD] at ht phiFree unversioned un
  obtain rfl : c.blocks = t := Except.ok.inj (c.blocks_eq.symm.trans ht)
  obtain rfl : c.succ = succ := Except.ok.inj (c.succ_eq.symm.trans hs)
  obtain rfl : c.entry = r := Except.ok.inj (c.entry_eq.symm.trans hr)
  refine ⟨c.result, rfl, c.successors_result w, c.entry_result w, ?_⟩
  have params : paramNames (f.withBody c.result.reassemble) = c.args := c.paramNames_eq
  rw [params]
  refine c.wellFormed_result w (c.entryFree_of_unnamed un) phiFree reached ?_
  rintro x hx d ⟨i, hi, hd⟩ k
  exact unversioned x (c.paramNames_eq ▸ hx) i hi d hd k

/-- A loop within a loop; two edges lead from the end of the outer one to its start. -/
def spinning : Func where
  name := some "main"
  args := some [Sample.wholeParam "n",
    Sample.truthParam "c"]
  instrs := some [
    Sample.whole "i" 0,
    .jump "loop",
    .labelled "loop",
    Sample.compute .int "add" "i" ["i", "n"],
    Sample.branch "c" "loop" "exit",
    .labelled "exit",
    Sample.effect "print" ["i"],
    Sample.compute .int "add" "i" ["n", "i"],
    Sample.branch "c" "loop" "loop"]

def spinningFlow : FlowMap :=
  ⟨[("b1", ["loop"]), ("loop", ["loop", "exit"]), ("exit", ["loop", "loop"])]⟩

theorem enter_wellFormed_spinning : ∃ g u, enter spinning = .ok g ∧
    g.instrs = some (NamedBlocks.reassemble u) ∧ u.successors = .ok spinningFlow ∧
    u.entry = .ok "b1" ∧ WellFormed (paramNames g) spinningFlow "b1" u := by
  have reached : ∀ n ∈ (NamedBlocks.ofBody (spinning.instrs.getD [])).keys,
      Reach spinningFlow.Edge "b1" n := by
    have loop : Reach spinningFlow.Edge "b1" "loop" := .step .root (by decide)
    have exit : Reach spinningFlow.Edge "b1" "exit" := loop.step (by decide)
    have keys : (NamedBlocks.ofBody (spinning.instrs.getD [])).keys = ["b1", "loop", "exit"] := rfl
    intro n hn
    obtain rfl | rfl | rfl : n = "b1" ∨ n = "loop" ∨ n = "exit" := by simpa [keys] using hn
    · exact .root
    · exact loop
    · exact exit
  have unversioned : ∀ x ∈ paramNames spinning, ∀ i ∈ spinning.instrs.getD [], ∀ d,
      i.dest = some d → ∀ k, x ≠ versionOf d k := by
    intro x hx _ _ d _ k
    obtain rfl | rfl : x = "n" ∨ x = "c" := by simpa [spinning, paramNames, Func.params] using hx
    · exact ne_versionOf (by decide)
    · exact ne_versionOf (by decide)
  obtain ⟨g, h⟩ : ∃ g, enter spinning = .ok g := exists_of_isOk (by cbv)
  obtain ⟨u, hu⟩ := enter_wellFormed (t := NamedBlocks.ofBody (spinning.instrs.getD [])) rfl rfl
    rfl (by decide) reached unversioned (by decide) h
  exact ⟨g, u, h, hu⟩

/-- The blocks that are left of the body with a jump to the new first block. -/
def reenteringResult : NamedBlocks := ⟨[
  ("entry1", [.jump "a"]),
  ("a", [
    { op := some "phi", type := some (.name "int"), args := some [undefinedName],
      labels := some ["entry1"], extra := [("dest", .null)] },
    Sample.whole "x" 1,
    Sample.branch "c" "b" "a"]),
  ("b", [
    { op := some "phi", type := some (.name "int"), args := some [], labels := some [],
      extra := [("dest", .null)] },
    Sample.whole "x" 2,
    Sample.effect "print" ["x"],
    .jump "entry1"])]⟩

def reenteringFlow : FlowMap := ⟨[("entry1", ["a"]), ("a", ["b", "a"]), ("b", ["entry1"])]⟩

/-- A jump to the new first block is enough for a result that is not well-formed: a phi has no
operand for the edge from its block to itself. -/
theorem enter_reentering : ∃ t succ, NamedBlocks.explicit (reentering.instrs.getD []) = .ok t ∧
    t.successors = .ok succ ∧ t.entry = .ok "entry1" ∧
    (∀ i ∈ reentering.instrs.getD [], i.op ≠ some "phi") ∧
    (∀ n ∈ t.keys, Reach succ.Edge "entry1" n) ∧
    (∀ x ∈ paramNames reentering, ∀ d k, x ≠ versionOf d k) ∧
    (enter reentering).map Func.instrs = .ok (some reenteringResult.reassemble) ∧
    reenteringResult.successors = .ok succ ∧ reenteringResult.entry = .ok "entry1" ∧
    ¬ WellFormed (paramNames reentering) succ "entry1" reenteringResult := by
  have start : Reach (FlowMap.Edge reenteringFlow) "entry1" "a" := .step .root (by decide)
  refine ⟨_, reenteringFlow, rfl, rfl, rfl, by decide, fun n hn => ?_, fun x hx d k => ?_, by cbv,
    rfl, rfl, fun wf => ?_⟩
  · have keys : n ∈ ["entry1", "a", "b"] := hn
    obtain rfl | rfl | rfl : n = "entry1" ∨ n = "a" ∨ n = "b" := by simpa using keys
    · exact .root
    · exact start
    · exact start.step (by decide)
  · obtain rfl : x = "c" := by simpa [reentering, paramNames, Func.params] using hx
    exact ne_versionOf (by decide)
  · have count := (wf.edges "a" _ rfl _ List.mem_cons_self rfl).2 "a"
    revert count
    decide

end Ssa

end BrilKit
