import BrilKit.Proofs.FlowGraph.Blocks

/-!
# Flow graphs of functions with labelled blocks

A function gets a block in front that copies its parameters to themselves, and a label for its first
operations. Main statement: the blocks of its flow graph are the copies and the blocks of its body
without unreachable operations.
-/

namespace BrilKit

open List Outcome

open FlowGraph

/-- Functions with a parameter whose blocks can be labelled without doubling a label. -/
structure Func.Labelable (f : Func) : Prop where
  items : ∀ i ∈ f.instrs.getD [], i.IsItem
  phiFree : ∀ i ∈ f.instrs.getD [], i.op ≠ some "phi"
  distinct : ∀ is, f.labelledBody true = .ok is → (is.filterMap Instr.label).Nodup
  targets : ∀ i ∈ f.instrs.getD [], i.Branches →
    ∀ l ∈ i.labels.getD [], ∃ j ∈ f.instrs.getD [], j.label = some l
  params : f.params ≠ []

/-- The label that the first operations of a body get. -/
def newLabels (is : List Instr) : List String := if is.head?.any Instr.isOp then ["entry"] else []

lemma Func.params_of_paramList? {f : Func} {ps : List Param} (h : f.paramList? = .ok (some ps)) :
    f.params = ps := by
  unfold paramList? at h
  unfold params
  split at h <;> simp_all

namespace FlowGraph

variable {f : Func} {g : FlowGraph} {ps : List Param} {copies is body : List Instr}
  {i first : Instr} {n : Node} {led : Bool}

lemma selfCopy_eq_ok {p : Param} {i : Instr} (h : Func.selfCopy p = .ok i) :
    ∃ x t, p.name = some x ∧
      i = { op := some "id", args := some [x], dest := some x, type := some t } := by
  obtain ⟨x, hx, h⟩ := of_bind h
  obtain ⟨t, ht, h⟩ := of_bind h
  rw [Param.getName, ofOption_eq_ok] at hx
  cases h
  exact ⟨x, t, hx, rfl⟩

def withLabel (first : Instr) (is : List Instr) : List Instr :=
  if first.isOp then .labelled "entry" :: first :: is else first :: is

lemma labelledBody_cases (h : f.labelledBody led = .ok body) :
    ∃ first is, f.instrs = some (first :: is) ∧
      ((led = true → f.paramList? = .ok none) ∧ body = withLabel first is ∨
        ∃ ps copies, led = true ∧ f.paramList? = .ok (some ps) ∧
          ps.mapM Func.selfCopy = .ok copies ∧
          body = .labelled "dummy_entry" :: (copies.reverse ++ withLabel first is)) := by
  obtain ⟨is, his, h⟩ := of_bind h
  obtain ⟨first, hfirst, h⟩ := of_bind h
  rw [Func.body, ofOption_eq_ok] at his
  rw [itemAt_eq_ok] at hfirst
  cases is with
  | nil => simp at hfirst
  | cons j is =>
    obtain rfl : j = first := by simpa using hfirst
    refine ⟨j, is, his, ?_⟩
    cases led with
    | false =>
      cases h
      exact .inl ⟨nofun, rfl⟩
    | true =>
      rw [if_pos rfl] at h
      obtain ⟨o, ho, h⟩ := of_bind h
      cases o with
      | none =>
        cases h
        exact .inl ⟨fun _ => ho, rfl⟩
      | some ps =>
        obtain ⟨copies, hcopies, h⟩ := of_bind h
        cases h
        exact .inr ⟨ps, copies, rfl, ho, hcopies, rfl⟩

lemma labelledBody_eq_ok (hp : f.params ≠ []) (h : f.labelledBody true = .ok body) :
    ∃ ps copies first is, f.args = some ps ∧
      f.instrs = some (first :: is) ∧ ps.mapM Func.selfCopy = .ok copies ∧
      body = .labelled "dummy_entry" :: (copies.reverse ++ withLabel first is) := by
  obtain ⟨first, is, his, h⟩ := labelledBody_cases h
  cases hargs : f.args with
  | none => simp [Func.params, hargs] at hp
  | some ps =>
    have list : f.paramList? = .ok (some ps) := by simp [Func.paramList?, hargs]
    obtain ⟨none, -⟩ | ⟨qs, copies, -, hqs, hcopies, rfl⟩ := h
    · cases (none rfl).symm.trans list
    · cases hqs.symm.trans list
      exact ⟨ps, copies, first, is, rfl, his, hcopies, rfl⟩

lemma filterMap_label_withLabel : (withLabel first is).filterMap Instr.label =
    newLabels (first :: is) ++ (first :: is).filterMap Instr.label := by
  unfold withLabel newLabels
  cases ho : first.isOp with
  | true => simp [ho, Instr.labelled]
  | false => simp [ho]

lemma mem_copies (h : ps.mapM Func.selfCopy = .ok copies) (hi : i ∈ copies) :
    ∃ p ∈ ps, ∃ x t, p.name = some x ∧
      i = { op := some "id", args := some [x], dest := some x, type := some t } := by
  rw [mapM_eq_ok] at h
  induction h with
  | nil => simp at hi
  | @cons p c ps copies hc _ ih =>
    obtain rfl | hi := mem_cons.mp hi
    · exact ⟨p, by simp, selfCopy_eq_ok hc⟩
    · obtain ⟨q, hq, h⟩ := ih hi
      exact ⟨q, by simp [hq], h⟩

lemma copy_isOp (h : ps.mapM Func.selfCopy = .ok copies) (hi : i ∈ copies.reverse) :
    i.isOp = true ∧ i.isTerminator = false ∧ i.label = none := by
  obtain ⟨_, _, x, t, _, rfl⟩ := mem_copies h (mem_reverse.mp hi)
  exact ⟨rfl, by simp [Instr.isTerminator, terminators], rfl⟩

lemma map_dest_copies (h : ps.mapM Func.selfCopy = .ok copies) :
    copies.map Instr.dest = ps.map Param.name := by
  rw [mapM_eq_ok] at h
  induction h with
  | nil => rfl
  | cons hc _ ih =>
    obtain ⟨x, t, hx, rfl⟩ := selfCopy_eq_ok hc
    rw [map_cons, map_cons, ih, hx]

lemma mem_withLabel (hi : i ∈ withLabel first is) : i ∈ first :: is ∨ i = .labelled "entry" := by
  unfold withLabel at hi
  split at hi
  · obtain rfl | hi := mem_cons.mp hi
    · exact .inr rfl
    · exact .inl hi
  · exact .inl hi

lemma exists_withLabel (first : Instr) (is : List Instr) :
    ∃ j js, withLabel first is = j :: js ∧ j.isOp = false := by
  unfold withLabel
  split
  · exact ⟨_, _, rfl, rfl⟩
  · next h => exact ⟨_, _, rfl, by simpa using h⟩

lemma trimmed_withLabel : trimmed true (withLabel first is) =
    (if first.isOp then [.labelled "entry"] else []) ++ trimmed false (first :: is) := by
  unfold withLabel
  split
  · rfl
  · next h => simp [trimmed_cons, h]

lemma trimmed_append {cs : List Instr} (ops : ∀ i ∈ cs, i.isOp = true)
    (hopen : ∀ i ∈ cs, i.isTerminator = false) :
    trimmed false (cs ++ is) = cs ++ trimmed false is := by
  induction cs with
  | nil => rfl
  | cons i cs ih =>
    rw [cons_append, trimmed_cons, if_pos (ops i (by simp)),
      hopen i (by simp), ih (fun j hj => ops j (by simp [hj])) fun j hj => hopen j (by simp [hj])]
    rfl

lemma split_trimmed_copies {copies : List Instr} (hcopies : ps.mapM Func.selfCopy = .ok copies) :
    Block.split (trimmed true (.labelled "dummy_entry" :: (copies.reverse ++ withLabel first is))) =
      (.labelled "dummy_entry" :: copies.reverse) ::
        Block.split (trimmed true (withLabel first is)) := by
  obtain ⟨j, js, e, hj⟩ := exists_withLabel first is
  rw [trimmed_cons, if_neg (by simp [Instr.isOp, Instr.labelled]), e,
    trimmed_append (fun i hi => (copy_isOp hcopies hi).1) fun i hi => (copy_isOp hcopies hi).2.1,
    trimmed_cons,
    trimmed_cons, hj, ← cons_append]
  refine Block.split_label (fun i hi => ?_) (fun i hi => (copy_isOp hcopies hi).1) (by simp) hj
  obtain rfl | hi := mem_cons.mp hi
  · rfl
  · exact (copy_isOp hcopies hi).2.1

lemma labelledBody_head (h : f.labelledBody led = .ok body) :
    ∃ i js, body = i :: js ∧ i.isOp = false := by
  obtain ⟨first, is, -, ⟨-, rfl⟩ | ⟨_, _, -, -, -, rfl⟩⟩ := labelledBody_cases h
  · exact exists_withLabel first is
  · exact ⟨_, _, rfl, rfl⟩

lemma labelledBody_items (h : f.labelledBody led = .ok body) (hi : i ∈ body) :
    (∃ l, i = .labelled l) ∨ (∃ p ∈ f.params, ∃ x t, p.name = some x ∧
      i = { op := some "id", args := some [x], dest := some x, type := some t }) ∨
    i ∈ f.instrs.getD [] := by
  obtain ⟨first, is, his, h⟩ := labelledBody_cases h
  have front : i ∈ withLabel first is → (∃ l, i = .labelled l) ∨ i ∈ f.instrs.getD [] := by
    intro hi
    obtain hi | rfl := mem_withLabel hi
    · exact .inr (by simpa [his] using hi)
    · exact .inl ⟨_, rfl⟩
  obtain ⟨-, rfl⟩ | ⟨ps, copies, -, hps, hcopies, rfl⟩ := h
  · exact (front hi).imp_right .inr
  · obtain rfl | hi := mem_cons.mp hi
    · exact .inl ⟨_, rfl⟩
    obtain hi | hi := mem_append.mp hi
    · rw [Func.params_of_paramList? hps]
      exact .inr (.inl (mem_copies hcopies (mem_reverse.mp hi)))
    · exact (front hi).imp_right .inr

lemma labelledBody_isItem (items : ∀ i ∈ f.instrs.getD [], i.IsItem)
    (h : f.labelledBody led = .ok body) :
    (∀ i ∈ body, i.IsItem) ∧ ∀ i ∈ body, i.Branches → i ∈ f.instrs.getD [] := by
  refine ⟨fun i hi => ?_, fun i hi hb => ?_⟩
  · obtain ⟨l, rfl⟩ | ⟨_, _, x, t, _, rfl⟩ | hi := labelledBody_items h hi
    · exact .inl ⟨rfl, l, rfl⟩
    · exact .inr ⟨rfl, "id", rfl⟩
    · exact items i hi
  · obtain ⟨l, rfl⟩ | ⟨_, _, x, t, _, rfl⟩ | hi := labelledBody_items h hi
    · simp [Instr.Branches, Instr.labelled] at hb
    · simp [Instr.Branches] at hb
    · exact hi

/-- The blocks of a graph without dead operations, behind their labels. -/
lemma block_ofBody {style : Style} {b : Block} (hd : style.dropsDead = true)
    (items : ∀ i ∈ is, i.IsItem) (h : ofBody style is = .ok g) (hb : b ∈ g.blocks) :
    (∃ i js l, b = i :: js ∧ i.op = none ∧ i.label = some l ∧ ∀ j ∈ js, j.isOp = true ∧
      j.label = none) ∧ Block.Unbroken b ∧ ∀ i ∈ b, i ∈ is := by
  rw [blocks_ofBody hd h] at hb
  have cut := Block.wellCut_of_mem_split hb
  have mem : ∀ i ∈ b, i ∈ is := fun i hi => mem_of_mem_trimmed (Block.mem_of_mem_split hb hi)
  obtain ⟨i, js, rfl, hi⟩ := Block.head_of_mem_split true hb
  obtain ⟨ho, l, hl⟩ | ⟨-, op, ho⟩ := items i (mem i (by simp))
  · exact ⟨⟨i, js, l, rfl, ho, hl, fun j hj =>
      ⟨cut.tail j hj, (items j (mem j (by simp [hj]))).label_of_isOp (cut.tail j hj)⟩⟩, cut.ends, mem⟩
  · simp [Instr.isOp, ho] at hi

/-- The graph of a function whose blocks are labelled: in front the copies of the parameters, then
the body. -/
structure Labelled (f : Func) (g : FlowGraph) (ps : List Param) (copies : List Instr)
    (first : Instr) (is : List Instr) : Prop where
  args : f.args = some ps
  instrs : f.instrs = some (first :: is)
  copied : ps.mapM Func.selfCopy = .ok copies
  built : f.labelledBody true = .ok (.labelled "dummy_entry" :: (copies.reverse ++ withLabel first is))
  graph : ∃ style : Style, style.dropsDead = true ∧
    ofBody style (.labelled "dummy_entry" :: (copies.reverse ++ withLabel first is)) = .ok g
  names : ("dummy_entry" :: (newLabels (first :: is) ++ (first :: is).filterMap Instr.label)).Nodup

/-- A function whose blocks can be labelled has a graph made of its blocks. -/
theorem labelledGraph_spec {style : Style} (lb : f.Labelable) (hd : style.dropsDead = true)
    (h : f.labelledGraph style true = .ok g) :
    ∃ ps copies first is, Labelled f g ps copies first is := by
  obtain ⟨body, hbody, h⟩ := of_bind h
  have nd := lb.distinct body hbody
  obtain ⟨ps, copies, first, is, hargs, hinstrs, hcopies, rfl⟩ := labelledBody_eq_ok lb.params hbody
  refine ⟨ps, copies, first, is, hargs, hinstrs, hcopies, hbody, ⟨style, hd, h⟩, ?_⟩
  have none : copies.reverse.filterMap Instr.label = [] :=
    filterMap_eq_nil_iff.mpr fun j hj => (copy_isOp hcopies hj).2.2
  rwa [filterMap_cons, filterMap_append, none, nil_append, filterMap_label_withLabel] at nd

namespace Labelled

variable (ld : Labelled f g ps copies first is)
include ld

lemma getD_instrs : f.instrs.getD [] = first :: is := by simp [ld.instrs]

lemma blocks : g.blocks = (.labelled "dummy_entry" :: copies.reverse) ::
    Block.split (trimmed true (withLabel first is)) := by
  obtain ⟨style, hd, h⟩ := ld.graph
  rw [blocks_ofBody hd h, split_trimmed_copies ld.copied]

lemma distinct {p q : Nat} {m : Node} {l : String} (hn : g[p]? = some n) (hm : g[q]? = some m)
    (hl : n.label = some l) (hl' : m.label = some l) : p = q := by
  obtain ⟨style, hd, h⟩ := ld.graph
  have none : copies.reverse.filterMap Instr.label = [] :=
    filterMap_eq_nil_iff.mpr fun j hj => (copy_isOp ld.copied hj).2.2
  refine label_injective (Nodup.sublist ?_ ld.names) hn hm hl hl'
  rw [body_of_split (blocks_ofBody hd h)]
  refine (trimmed_sublist.filterMap _).trans ?_
  rw [filterMap_cons, filterMap_append, none, nil_append, filterMap_label_withLabel]
  exact .refl _

variable (lb : f.Labelable)
include lb

lemma charted : Charted g := by
  obtain ⟨style, -, h⟩ := ld.graph
  exact ofBody_charted (labelledBody_isItem lb.items ld.built).1 h

lemma edges {p q : Nat} : Into g p q ↔ Edge g p q := by
  obtain ⟨style, -, h⟩ := ld.graph
  exact into_iff_edge (labelledBody_isItem lb.items ld.built).1 h

lemma block (hn : n ∈ g) : (∃ i js l, n.block = i :: js ∧ i.op = none ∧ i.label = some l ∧
      ∀ j ∈ js, j.isOp = true ∧ j.label = none) ∧ Block.Unbroken n.block ∧
    ∀ i ∈ n.block, i ∈ Instr.labelled "dummy_entry" :: (copies.reverse ++ withLabel first is) := by
  obtain ⟨style, hd, h⟩ := ld.graph
  exact block_ofBody hd (labelledBody_isItem lb.items ld.built).1 h (mem_map_of_mem hn)

/-- The labels that are put in front are not among those of the body, so nothing jumps to them. -/
lemma fresh (hi : i ∈ first :: is) (hb : i.Branches) {l : String} (hl : l ∈ i.labels.getD []) :
    l ∉ "dummy_entry" :: newLabels (first :: is) := by
  rw [← ld.getD_instrs] at hi
  obtain ⟨j, hj, hjl⟩ := lb.targets i hi hb l hl
  rw [ld.getD_instrs] at hj
  exact fun h => (nodup_append.mp ld.names).2.2 l h l (mem_filterMap.mpr ⟨j, hj, hjl⟩) rfl

lemma root (hn : g[0]? = some n) : n.pred = [] := by
  obtain ⟨style, hd, h⟩ := ld.graph
  obtain ⟨items, branches⟩ := labelledBody_isItem lb.items ld.built
  refine pred_root (l := "dummy_entry") items h (by rw [ld.blocks]; rfl)
    (fun b hb j hj hbr hl => ?_) hn
  have mem := branches j ((block_ofBody hd items h hb).2.2 j hj) hbr
  exact ld.fresh lb (ld.getD_instrs ▸ mem) hbr hl mem_cons_self

end Labelled

end FlowGraph

end BrilKit
