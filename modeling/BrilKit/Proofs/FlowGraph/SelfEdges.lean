import BrilKit.Proofs.FlowGraph.Blocks
import BrilKit.Proofs.FlowGraph.Complete

/-!
# Blocks that jump to themselves

Builders without self-edges look for the far end of an edge among the blocks that are complete, where
the block at hand is not found. Main statement: this is the only difference that self-edges make. Two
builders agree on every function unless a block names its own label; then the one has no result and
the other one links the block to itself as often as the label is named.
-/

namespace BrilKit

open List Outcome

namespace FlowGraph

open Block (Gathered)

variable {style : Style} {is : List Instr} {i : Instr} {l : String} {p q : Nat}

/-- The block at hand once some instructions have been read; it is empty behind a terminator. -/
def openBlock (is : List Instr) : Block := ((trimmed true is).foldl Gathered.take {}).current

/-- An instruction names the label of the block at hand. -/
def NamesOwn (l : String) (b : Block) (i : Instr) : Prop :=
  l ∈ i.targets ∧ b.head?.bind Instr.label = some l

namespace Builder

variable {c c' d : Builder} {start : Bool} {ls : List String}

/-! ### Edges from a block to itself -/

/-- A new block has no edges to itself. -/
lemma recorded_close :
    recorded (c.close { block := [] }).nodes p p start = recorded c.nodes p p start := by
  rw [nodes_close, recorded_concat]
  cases start <;> simp [recordedAt]

lemma recorded_opened : recorded c.opened.nodes p p start = recorded c.nodes p p start := by
  unfold opened
  split
  · rfl
  · rw [nodes_close, nodes_current, recorded_concat, length_modify, length_nodes,
      recorded_modify (f := addSucc _) index_lt (fun _ => rfl) fun _ => (append_nil _).symm]
    cases start <;> simp +contextual [recordedAt]

/-- Only a block that ends can be linked to itself. -/
lemma take_self (h : take style c i = .ok c') : c.index ≤ c'.index ∧
    ∀ p, p ≠ c.index ∨ c'.index = c.index → ∀ start,
      recorded c'.nodes p p start = recorded c.nodes p p start := by
  unfold take at h
  split at h
  · obtain ⟨-, rfl⟩ | ⟨-, d, hd, rfl⟩ := takeOp_cases h
    · exact ⟨Nat.le_refl _, fun _ _ _ => rfl⟩
    obtain ⟨w, -⟩ := foldlM_jump hd
    have index : d.index = c.index := w.index_eq
    cases term : i.isTerminator with
    | true =>
      have next : ((d.push i).close { block := [] }).index = c.index + 1 := by
        simpa [close, push, Builder.index] using index
      refine ⟨by simp [next], fun p hp start => ?_⟩
      have away : p ≠ c.index := hp.resolve_right (by simp [next])
      rw [if_pos rfl, recorded_close, recorded_push, w.edges, if_neg away]
      rfl
    | false =>
      refine ⟨Nat.le_of_eq index.symm, fun p _ start => ?_⟩
      rw [if_neg Bool.false_ne_true, recorded_push, w.edges, Instr.targets_of_not_isTerminator term]
      simp [nodes]
  · obtain ⟨w, lt⟩ := foldlM_linkForward (takeLabel_eq_ok.mp h).2
    refine ⟨w.index_eq ▸ index_le_opened, fun p _ start => ?_⟩
    have none : (c.jumps.getD i.label []).count c.opened.index = 0 :=
      count_eq_zero_of_not_mem fun hp => Nat.lt_irrefl _ (lt _ hp)
    have same : recorded (c.opened.push i).nodes p p start = recorded c.nodes p p start :=
      recorded_push.trans recorded_opened
    rw [w.edges, ← same]
    refine Nat.add_eq_left.mpr (ite_eq_right_iff.mpr ?_)
    rintro rfl
    exact none

/-- No block that goes on has edges to itself. -/
def Fresh (c : Builder) : Prop := ∀ p, c.index ≤ p → ∀ start, recorded c.nodes p p start = 0

lemma fresh_empty : Fresh {} := fun p _ start => by cases p <;> cases start <;> simp [nodes, recorded]

lemma Fresh.take (fr : Fresh c) (h : take style c i = .ok c') : Fresh c' := by
  obtain ⟨hle, same⟩ := take_self h
  intro p hp start
  rw [same p (by omega), fr p (Nat.le_trans hle hp)]

lemma recorded_graph {m : Nat} (hp : p < c.index) (h : ∀ start, recorded c.nodes p p start = m) :
    ∃ n, c.graph[p]? = some n ∧ n.succ.count p = m ∧ n.pred.count p = m := by
  have last : c.nodes[p]? = some (c.done.get ⟨p, hp⟩) := by
    rw [nodes, getElem?_append_left hp]
    exact getElem?_eq_getElem hp
  refine ⟨c.done.get ⟨p, hp⟩, ?_, ?_⟩
  · unfold graph
    split
    · exact getElem?_eq_getElem hp
    · exact last
  · simpa [recorded, last] using And.intro (h true) (h false)

/-! ### The block at hand -/

lemma labelAt_index : labelAt c.blocksRead c.index = c.current.block.head?.bind Instr.label := by
  rw [blocksRead_eq, labelAt_concat, if_pos length_done.symm]

/-- Dead operations apart, blocks start with the labels that they are on record under. -/
lemma Placed.take (pl : Placed c) (hd : style.dropsDead = true) (h : take style c i = .ok c') :
    Placed c' := by
  unfold Builder.take at h
  split at h
  · obtain ⟨-, rfl⟩ | ⟨kept, d, hjump, rfl⟩ := takeOp_cases h
    · exact pl
    have block : d.current.block = c.current.block :=
      congrArg Gathered.current (gathered_of_blocksRead (foldlM_jump hjump).1.blocks)
    have pushed := pl.push (.inr fun empty => kept ⟨hd, block ▸ empty⟩) hjump
    split
    · exact pushed.next (f := id) (fun _ => rfl) rfl
    · exact pushed
  · obtain ⟨opened, empty, hj, hp⟩ := pl.opened
    exact opened.label empty (by rw [hj, hp]; exact (takeLabel_eq_ok.mp h).2)

lemma Placed.mem_iff (pl : Placed c) : c.index ∈ c.placed.getD (some l) [] ↔
    c.current.block.head?.bind Instr.label = some l := by
  rw [← count_pos_iff, pl, labelAt_index]
  split <;> simp_all

/-! ### Where the builders part -/

lemma linkBack_labelled (h : q ≠ c.index) : linkBack .labelled c q = linkBack .looping c q := by
  simp [linkBack, h]

lemma foldlM_linkBack_labelled {qs : List Nat} (h : c.index ∉ qs) :
    qs.foldlM (linkBack .labelled) c = qs.foldlM (linkBack .looping) c :=
  foldlM_congr (fun d => d.index = c.index) (fun _ hq _ hd =>
    ⟨linkBack_labelled fun e => h (hd ▸ e ▸ hq), fun _ ht => (linkBack_wired ht).index_eq.trans hd⟩) rfl

lemma foldlM_jump_labelled (h : ∀ l ∈ ls, c.index ∉ c.placed.getD (some l) []) :
    ls.foldlM (jump .labelled) c = ls.foldlM (jump .looping) c := by
  refine foldlM_congr (fun d => d.index = c.index ∧ d.placed = c.placed) (fun l hl d hd => ?_) ⟨rfl, rfl⟩
  refine ⟨foldlM_linkBack_labelled (c := { d with jumps := _ }) ?_, fun t ht => ?_⟩
  · rw [hd.2]
    exact fun hq => h l hl (hd.1 ▸ show d.index ∈ _ from hq)
  · exact ⟨(jump_wired ht).index_eq.trans hd.1, (jump_wired ht).placed.trans hd.2⟩

lemma foldlM_jump_error {e : Fault} (h : ls.foldlM (jump style) c = .error e) :
    e = .outOfRange := by
  by_contra ne
  refine foldlM_ne_error (fun l _ c => foldlM_ne_error fun q _ c hc => ?_) h
  unfold linkBack modifyDone at hc
  dsimp only at hc
  split at hc
  · cases hc
  · split at hc <;> cases hc
    exact ne rfl

lemma take_labelled (pl : Placed c) (h : ∀ l, ¬ NamesOwn l c.current.block i) :
    take .labelled c i = take .looping c i := by
  unfold take takeOp
  rw [show Style.labelled.dropsDead = Style.looping.dropsDead from rfl]
  split
  · split
    · rfl
    split
    · next term =>
      split
      · rfl
      next ret =>
      cases hls : i.getLabels with
      | error e => rfl
      | ok ls =>
        have same : ls.foldlM (jump .labelled) c = ls.foldlM (jump .looping) c :=
          foldlM_jump_labelled fun l hl own =>
            h l ⟨Instr.targets_eq term ret hls ▸ hl, pl.mem_iff.mp own⟩
        exact congrArg (· >>= fun d : Builder => pure ((d.push i).close { block := [] })) same
    · rfl
  · rfl

lemma take_branch (hd : c.current.block ≠ []) (hl : l ∈ i.targets) : take style c i =
    i.targets.foldlM (jump style) c >>= fun d => pure ((d.push i).close { block := [] }) := by
  have hb : i.Branches := by
    by_contra hb
    simp [Instr.targets, hb] at hl
  have hls : i.getLabels = .ok i.targets := by
    cases hi : i.labels with
    | none => simp [Instr.targets, hi] at hl
    | some ls => simp [Instr.getLabels, ofOption_eq_ok, Instr.targets, hb, hi]
  have op : i.isOp = true ∧ i.hasOp "ret" = false := by
    obtain ho | ho := hb <;> simp [Instr.isOp, Instr.hasOp, ho]
  rw [take, if_pos op.1, takeOp, if_neg (by simp [hd]), if_pos (Instr.isTerminator_of_branches hb),
    if_neg (by simp [op.2]), hls]
  rfl

lemma take_own (pl : Placed c) (names : NamesOwn l c.current.block i) :
    take .labelled c i = .error .outOfRange ∧ ∃ c', take .looping c i = .ok c' ∧
      c.index < c'.index ∧ ∀ start, recorded c'.nodes c.index c.index start =
        recorded c.nodes c.index c.index start + i.targets.count l := by
  obtain ⟨hl, own⟩ := names
  have begun : c.current.block ≠ [] := fun empty => by simp [empty] at own
  rw [take_branch begun hl, take_branch begun hl]
  constructor
  · cases h : i.targets.foldlM (jump .labelled) c with
    | error e => rw [foldlM_jump_error h]; rfl
    | ok d => exact absurd ((foldlM_jump h).2.2 rfl l hl _ (pl.mem_iff.mpr own)) (Nat.lt_irrefl _)
  · obtain ⟨d, hd⟩ := foldlM_jump_total i.targets (show Style.looping.selfEdges = true from rfl) pl
    obtain ⟨w, -⟩ := foldlM_jump hd
    have index : d.index = c.index := w.index_eq
    have count : (i.targets.flatMap fun l => c.placed.getD (some l) []).count c.index =
        i.targets.count l := by
      rw [count_flatMap_placed (pl · _), labelAt_index, own, count_map_of_injective _ _ fun _ _ => Option.some.inj]
    refine ⟨_, ok_bind hd rfl, ?_, fun start => ?_⟩
    · rw [← index]
      simp [close, push, Builder.index]
    · rw [recorded_close, recorded_push, w.edges, if_pos rfl, count]
      rfl

/-- Two runs agree up to the first instruction that names its own block. -/
lemma foldlM_take_labelled (is : List Instr) (pl : Placed c) :
    is.foldlM (take .labelled) c = is.foldlM (take .looping) c ∨
    is.foldlM (take .labelled) c = .error .outOfRange ∧ ∃ done i todo d, is = done ++ i :: todo ∧
      done.foldlM (take .looping) c = .ok d ∧ ∃ l, NamesOwn l d.current.block i := by
  induction is generalizing c with
  | nil => exact .inl rfl
  | cons i is ih =>
    by_cases own : ∃ l, NamesOwn l c.current.block i
    · refine .inr ⟨?_, [], i, is, c, rfl, rfl, own⟩
      obtain ⟨l, own⟩ := own
      rw [foldlM_cons, (take_own pl own).1]
      rfl
    · rw [foldlM_cons, foldlM_cons, take_labelled pl (not_exists.mp own)]
      cases hd : take .looping c i with
      | error e => exact .inl rfl
      | ok d =>
        obtain same | ⟨fails, done, j, todo, c', rfl, hc', hj⟩ := ih (pl.take rfl hd)
        · exact .inl same
        · exact .inr ⟨fails, i :: done, j, todo, c', rfl, foldlM_cons_eq_ok.mpr ⟨d, hd, hc'⟩, hj⟩

lemma block_eq_openBlock (hd : style.dropsDead = true) (h : is.foldlM (take style) {} = .ok c) :
    c.current.block = openBlock is :=
  congrArg Gathered.current (gathered_foldlM_take hd h)

end Builder

lemma labelledGraph_eq {f : Func} {copies : Bool} (h : f.labelledBody copies = .ok is) :
    f.labelledGraph style copies = ofBody style is := by
  rw [Func.labelledGraph, h]
  rfl

/-- Self-edges make no difference to a function in which no block names its own label. If one does
and can be read up to there, there is no graph without self-edges, and the block is linked to itself,
at both ends, once for each time that it names its label. -/
theorem labelledGraph_selfEdges (f : Func) (copies : Bool) :
    ((∀ is, f.labelledBody copies = .ok is → ∀ done i todo, is = done ++ i :: todo →
        ∀ l, ¬ NamesOwn l (openBlock done) i) →
      f.labelledGraph .labelled copies = f.labelledGraph .looping copies) ∧
    ∀ done i todo l c, f.labelledBody copies = .ok (done ++ i :: todo) →
      NamesOwn l (openBlock done) i → done.foldlM (Builder.take .looping) {} = .ok c →
      f.labelledGraph .labelled copies = .error .outOfRange ∧
      (∃ c', Builder.take .looping c i = .ok c') ∧
      ∀ g, f.labelledGraph .looping copies = .ok g → ∃ n, g[c.index]? = some n ∧
        n.succ.count c.index = i.targets.count l ∧ n.pred.count c.index = i.targets.count l := by
  refine ⟨fun none => ?_, fun done i todo l c hbody own hc => ?_⟩
  · cases hbody : f.labelledBody copies with
    | error e => rw [Func.labelledGraph, Func.labelledGraph, hbody]; rfl
    | ok is =>
      rw [labelledGraph_eq hbody, labelledGraph_eq hbody]
      obtain same | ⟨-, done, i, todo, c, rfl, hc, l, own⟩ :=
        Builder.foldlM_take_labelled is Builder.placed_empty
      · rw [ofBody, ofBody, same]
      · exact absurd (Builder.block_eq_openBlock rfl hc ▸ own) (none _ hbody done i todo rfl l)
  · rw [← Builder.block_eq_openBlock rfl hc] at own
    have pl := foldlM_invariant Builder.Placed (fun _ _ _ _ pl h => pl.take rfl h) hc Builder.placed_empty
    have fresh := foldlM_invariant Builder.Fresh (fun _ _ _ _ fr h => fr.take h) hc Builder.fresh_empty
    obtain ⟨fails, c', hc', hlt, loops⟩ := Builder.take_own pl own
    rw [labelledGraph_eq hbody, labelledGraph_eq hbody]
    refine ⟨?_, ⟨c', hc'⟩, fun g hg => ?_⟩
    · rw [ofBody, foldlM_append]
      obtain same | ⟨before, -⟩ := Builder.foldlM_take_labelled done Builder.placed_empty
      · rw [same, hc]
        show ((i :: todo).foldlM (Builder.take .labelled) c >>= _) = _
        rw [foldlM_cons, fails]
        rfl
      · rw [before]
        rfl
    · obtain ⟨e, he, rfl⟩ := ofBody_eq_ok hg
      rw [foldlM_append] at he
      obtain ⟨d, hd, he⟩ := bind_eq_ok.mp he
      obtain rfl : c = d := Except.ok.inj (hc.symm.trans hd)
      obtain ⟨d, hd, he⟩ := foldlM_cons_eq_ok.mp he
      obtain rfl : c' = d := Except.ok.inj (hc'.symm.trans hd)
      obtain ⟨hlt, loops⟩ := foldlM_invariant (fun d : Builder => c.index < d.index ∧
        ∀ start, recorded d.nodes c.index c.index start = i.targets.count l)
        (fun _ _ d e both h => by
          obtain ⟨hle, same⟩ := Builder.take_self h
          exact ⟨Nat.lt_of_lt_of_le both.1 hle, fun start =>
            (same _ (.inl (Nat.ne_of_lt both.1)) start).trans (both.2 start)⟩)
        he ⟨hlt, fun start => by rw [loops, fresh _ (Nat.le_refl _), Nat.zero_add]⟩
      exact Builder.recorded_graph hlt loops

/-- A block that names its label twice. -/
def spinning : Func where
  instrs := some [.labelled "spin",
    { op := some "br", args := some ["x"], labels := some ["spin", "spin"] }]

theorem labelledGraph_selfEdges_spinning :
    spinning.labelledGraph .labelled false = .error .outOfRange ∧
    ∀ g, spinning.labelledGraph .looping false = .ok g → ∃ n, g[0]? = some n ∧
      n.succ.count 0 = 2 ∧ n.pred.count 0 = 2 := by
  obtain ⟨fails, -, twice⟩ := (labelledGraph_selfEdges spinning false).2 [.labelled "spin"]
    { op := some "br", args := some ["x"], labels := some ["spin", "spin"] } [] "spin" _ rfl
    ⟨by decide, by rfl⟩ rfl
  exact ⟨fails, twice⟩

end FlowGraph

end BrilKit
