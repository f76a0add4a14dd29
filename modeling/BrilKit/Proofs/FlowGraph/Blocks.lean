import BrilKit.Proofs.FlowGraph.Build

/-!
# The blocks of a flow graph

A flow graph has the blocks that the body falls apart into. If it leaves out dead operations, they are
those of the body once the operations between a terminator and the next label are gone. The blocks of
a body are the only partition of it that is cut at labels and terminators.
-/

namespace BrilKit

open List Outcome

variable {passed : Bool} {i : Instr} {is : List Instr}

/-- A body without the operations that stand between a terminator and the next label. The flag tells
that a terminator has been passed and no label since. -/
def trimmed : Bool → List Instr → List Instr
  | _, [] => []
  | passed, i :: is =>
    if i.isOp then
      if passed then trimmed true is else i :: trimmed i.isTerminator is
    else i :: trimmed false is

lemma trimmed_cons : trimmed passed (i :: is) =
    if i.isOp then if passed then trimmed true is else i :: trimmed i.isTerminator is
    else i :: trimmed false is := by
  rw [trimmed]

lemma trimmed_sublist : (trimmed passed is).Sublist is := by
  induction is generalizing passed with
  | nil => exact .slnil
  | cons i is ih =>
    rw [trimmed_cons]
    split
    · split
      · exact ih.cons i
      · exact ih.cons_cons i
    · exact ih.cons_cons i

lemma mem_of_mem_trimmed (h : i ∈ trimmed passed is) : i ∈ is :=
  trimmed_sublist.subset h

namespace Block

lemma cons_cases (i : Instr) (bs : List Block) : ∃ b rest, Block.cons i bs = (i :: b) :: rest ∧
    ∀ c ∈ rest, c ∈ bs.tail ∨ c ∈ bs ∧ (i.isTerminator = true ∨ ∃ j r, c = j :: r ∧ j.isOp = false) := by
  unfold Block.cons
  split
  · exact ⟨_, _, rfl, by simp⟩
  · split
    · next j r =>
      split
      · next hc =>
        have first : i.isTerminator = true ∨ j.isOp = false := by simpa using hc
        exact ⟨_, _, rfl, forall_mem_cons.mpr
          ⟨.inr ⟨mem_cons_self, first.imp_right fun hj => ⟨j, r, rfl, hj⟩⟩, fun _ => .inl⟩⟩
      · exact ⟨_, _, rfl, fun _ => .inl⟩
    · exact ⟨_, _, rfl, fun _ => .inl⟩

/-- The blocks of a body without unreachable operations start with labels, but for the first one
where operations may stand in front. -/
lemma head_of_mem_split (passed : Bool) {b : Block} (hb : b ∈ if passed then
    split (trimmed passed is) else (split (trimmed passed is)).tail) :
    ∃ j r, b = j :: r ∧ j.isOp = false := by
  induction is generalizing passed with
  | nil => cases passed <;> simp [trimmed, split] at hb
  | cons i is ih =>
    -- What comes behind the block of the first instruction.
    have behind : ∀ passed, (i.isTerminator = true → passed = true) → ∃ c rest,
        split (i :: trimmed passed is) = (i :: c) :: rest ∧
          (b ∈ rest → ∃ j r, b = j :: r ∧ j.isOp = false) := by
      intro passed term
      obtain ⟨c, rest, e, h⟩ := cons_cases i (split (trimmed passed is))
      refine ⟨c, rest, e, fun hb => ?_⟩
      obtain hb | ⟨hb, ht | labelled⟩ := h b hb
      · exact ih passed (by split <;> [exact mem_of_mem_tail hb; exact hb])
      · exact ih passed (by rwa [if_pos (term ht)])
      · exact labelled
    rw [trimmed_cons] at hb
    cases hop : i.isOp with
    | true =>
      obtain ⟨c, rest, e, labelled⟩ := behind i.isTerminator id
      cases passed with
      | true => exact ih true (by simpa [hop] using hb)
      | false => exact labelled (by simpa [hop, e] using hb)
    | false =>
      obtain ⟨c, rest, e, labelled⟩ := behind false fun ht => by
        rw [Instr.not_isTerminator hop] at ht
        cases ht
      simp only [hop, Bool.false_eq_true, if_false, e] at hb
      split at hb
      · obtain rfl | hb := mem_cons.mp hb
        · exact ⟨i, c, rfl, hop⟩
        · exact labelled hb
      · exact labelled hb

end Block

namespace FlowGraph

open Block (Gathered)

variable {style : Style} {is : List Instr} {i : Instr} {g : FlowGraph}

namespace Builder

variable {c c' : Builder}

/-- The builder drops operations as long as it has no block to put them in. -/
lemma gathered_foldlM_take (hd : style.dropsDead = true) (h : is.foldlM (take style) c = .ok c') :
    c'.gathered = (trimmed c.gathered.current.isEmpty is).foldl Gathered.take c.gathered := by
  induction is generalizing c with
  | nil =>
    cases foldlM_nil_eq_ok.mp h
    rfl
  | cons i is ih =>
    obtain ⟨d, hi, h⟩ := foldlM_cons_eq_ok.mp h
    have e := gathered_take hi
    rw [ih h, trimmed_cons]
    cases ho : i.isOp with
    | false =>
      simp only [ho, Bool.false_eq_true, false_and, if_false] at e
      have begun : d.gathered.current.isEmpty = false := by
        simp only [e, Gathered.take, ho, Bool.false_eq_true, if_false]
        split <;> rfl
      simp [e ▸ begun, e]
    | true =>
      by_cases hempty : c.gathered.current = []
      · rw [if_pos ⟨ho, hd, hempty⟩] at e
        simp [e, hempty]
      · rw [if_neg fun h => hempty h.2.2] at e
        have ends : d.gathered.current.isEmpty = i.isTerminator := by
          simp only [e, Gathered.take, ho]
          cases i.isTerminator <;> simp
        simp [e ▸ ends, e, hempty]

lemma gathered_foldlM_take_whole (hd : style.dropsDead = false)
    (h : is.foldlM (take style) c = .ok c') : c'.gathered = is.foldl Gathered.take c.gathered := by
  induction is generalizing c with
  | nil =>
    cases foldlM_nil_eq_ok.mp h
    rfl
  | cons i is ih =>
    obtain ⟨d, hi, h⟩ := foldlM_cons_eq_ok.mp h
    rw [ih h, foldl_cons, gathered_take hi, if_neg (by simp [hd])]

end Builder

/-- The blocks of a graph without dead operations. -/
theorem blocks_ofBody (hd : style.dropsDead = true) (h : ofBody style is = .ok g) :
    g.blocks = Block.split (trimmed true is) := by
  obtain ⟨c, hc, rfl⟩ := ofBody_eq_ok h
  rw [c.blocks_graph, Builder.gathered_foldlM_take hd hc]
  exact Block.collect_eq_split (trimmed true is)

/-- The blocks of a graph in which nothing is left out. -/
theorem blocks_ofBody_whole (hd : style.dropsDead = false) (h : ofBody style is = .ok g) :
    g.blocks = Block.split is := by
  obtain ⟨c, hc, rfl⟩ := ofBody_eq_ok h
  rw [c.blocks_graph, Builder.gathered_foldlM_take_whole hd hc]
  exact Block.collect_eq_split is

/-- The labels of blocks are as distinct as those of the body. -/
lemma label_injective (distinct : (g.body.filterMap Instr.label).Nodup) {p q : Nat} {n m : Node}
    {l : String} (hn : g[p]? = some n) (hm : g[q]? = some m) (hl : n.label = some l)
    (hl' : m.label = some l) : p = q := by
  have apart : g.Pairwise fun n m =>
      List.Disjoint (n.block.filterMap Instr.label) (m.block.filterMap Instr.label) := by
    have e : g.body.filterMap Instr.label = (g.map fun n => n.block.filterMap Instr.label).flatten := by
      simp [FlowGraph.body, flatMap_def, filterMap_flatten, Function.comp_def]
    rw [e] at distinct
    exact pairwise_map.mp (nodup_flatten.mp distinct).2
  have mem : ∀ {n : Node}, n.label = some l → l ∈ n.block.filterMap Instr.label := by
    intro n h
    obtain ⟨i, hi, hl⟩ := Option.bind_eq_some_iff.mp h
    exact mem_filterMap.mpr ⟨i, mem_of_mem_head? hi, hl⟩
  obtain ⟨hp, rfl⟩ := List.getElem?_eq_some_iff.mp hn
  obtain ⟨hq, rfl⟩ := List.getElem?_eq_some_iff.mp hm
  rw [pairwise_iff_getElem] at apart
  obtain h | h | h := Nat.lt_trichotomy p q
  · exact absurd (mem hl') (apart p q hp hq h (mem hl))
  · exact h
  · exact absurd (mem hl) (apart q p hq hp h (mem hl'))

lemma body_of_split (h : g.blocks = Block.split is) : g.body = is := by
  rw [← Block.flatten_split is, ← h]
  simp [FlowGraph.body, FlowGraph.blocks, flatMap_def]

/-- Every way to cut a body gives the only partition that it has. -/
theorem blocks_partition (is : List Instr) :
    Block.collect is = Block.split is ∧
      (∀ g, ofBody .full is = .ok g → g.blocks = Block.split is) ∧
      ∀ bs, bs = Block.split is ↔ Block.IsPartition is bs := by
  refine ⟨Block.collect_eq_split is, fun g => blocks_ofBody_whole rfl, fun bs => ⟨?_, ?_⟩⟩
  · rintro rfl
    exact Block.isPartition_split is
  · exact Block.IsPartition.eq_split

/-- Two labels in a row, a jump back, and an operation that nothing leads to. -/
theorem blocks_partition_loop : ∃ g,
    ofBody .full [.labelled "a", .labelled "b", .jump "a", { op := some "nop" }] = .ok g ∧
      g.blocks = [[.labelled "a"], [.labelled "b", .jump "a"], [{ op := some "nop" }]] :=
  Exists.imp (fun g hg => ⟨hg, ((blocks_partition _).2.1 g hg).trans rfl⟩) ⟨_, rfl⟩

end FlowGraph

end BrilKit
