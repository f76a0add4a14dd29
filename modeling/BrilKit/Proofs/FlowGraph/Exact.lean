import BrilKit.Proofs.FlowGraph.Complete
import BrilKit.Proofs.FlowGraph.Labelled

/-!
# The flow graph of a function is exact

Main statement: every function whose items are labels and operations has a flow graph. Its blocks are
the labelled body without dead operations, each starts with its only label and ends with its only
terminator, and between two blocks there are as many edges, at both ends, as control has ways.
-/

namespace BrilKit

open List Outcome

/-- The ways out of a block to one with a label: the times that its terminator names the label. From
a block without a terminator there is a way to the next block only. -/
def Block.exits (b : Block) (l : String) (next : Bool) : Nat :=
  match b.getLast? with
  | some i => if i.isTerminator then i.targets.count l else next.toNat
  | none => 0

namespace FlowGraph

variable {f : Func} {copies : Bool} {g : FlowGraph} {b : Block} {is : List Instr} {l : String}
  {p q : Nat}

lemma exits_eq (hne : b ≠ []) (unbroken : Block.Unbroken b) (next : Bool) : b.exits l next =
    (b.flatMap Instr.targets).count l + if next ∧ b.all (!·.isTerminator) then 1 else 0 := by
  obtain ⟨init, last, rfl⟩ := (eq_nil_or_concat' b).resolve_left hne
  have hopen : ∀ j ∈ init, j.isTerminator = false := fun j hj => by
    by_contra term
    obtain ⟨done, todo, rfl⟩ := append_of_mem hj
    have none := unbroken done j (todo ++ [last]) (by simp) (by simpa using term)
    simp at none
  have quiet : init.flatMap Instr.targets = [] :=
    flatMap_eq_nil_iff.mpr fun j hj => Instr.targets_of_not_isTerminator (hopen j hj)
  rw [Block.exits, getLast?_concat, flatMap_append, quiet]
  cases term : last.isTerminator with
  | true => simp [term]
  | false =>
    have all : (init ++ [last]).all (!·.isTerminator) = true := by simpa [term] using hopen
    cases next <;> simp [all, term, Instr.targets_of_not_isTerminator term]

lemma labelledBody_total (nonempty : f.instrs.getD [] ≠ []) {o : Option (List Param)}
    (args : f.paramList? = .ok o)
    (params : ∀ ps ∈ o, ∀ p ∈ ps, (∃ x, p.name = some x) ∧ ∃ t, p.type = some t) :
    ∃ is, f.labelledBody copies = .ok is := by
  obtain ⟨first, body, hbody⟩ := Func.exists_cons nonempty
  have hf : f.body = .ok (first :: body) := ofOption_eq_ok.mpr hbody
  cases copies with
  | false => exact ⟨_, ok_bind hf (ok_bind rfl rfl)⟩
  | true =>
    cases o with
    | none =>
      exact ⟨_, ok_bind hf (ok_bind rfl (ok_bind args rfl))⟩
    | some ps =>
      obtain ⟨cs, hcs⟩ : ∃ cs, ps.mapM Func.selfCopy = .ok cs := mapM_total fun p hp => by
        obtain ⟨⟨x, hx⟩, t, ht⟩ := params ps rfl p hp
        exact ⟨_, ok_bind (ofOption_eq_ok.mpr hx) (ok_bind (ofOption_eq_ok.mpr ht) rfl)⟩
      exact ⟨_, ok_bind hf (ok_bind rfl (ok_bind args (ok_bind hcs rfl)))⟩

/-- The flow graph of a function. Labels may be named or set more than once. -/
theorem labelledGraph_exact (items : ∀ i ∈ f.instrs.getD [], i.IsItem)
    (nonempty : f.instrs.getD [] ≠ []) {o : Option (List Param)} (args : f.paramList? = .ok o)
    (params : ∀ ps ∈ o, ∀ p ∈ ps, (∃ x, p.name = some x) ∧ ∃ t, p.type = some t)
    (labels : ∀ i ∈ f.instrs.getD [], i.Branches → ∃ ls, i.labels = some ls) :
    ∃ is g, f.labelledBody copies = .ok is ∧ f.labelledGraph .looping copies = .ok g ∧
      g.blocks.flatten = trimmed false is ∧
      (∀ b ∈ g.blocks, (∃ i js l, b = i :: js ∧ i.op = none ∧ i.label = some l ∧
          ∀ j ∈ js, j.isOp = true ∧ j.label = none) ∧
        ∀ done i todo, b = done ++ i :: todo → i.isTerminator = true → todo = []) ∧
      ∀ (p q : Nat) n m l, g[p]? = some n → g[q]? = some m → m.label = some l →
        n.succ.count q = n.block.exits l (q == p + 1) ∧
        m.pred.count p = n.block.exits l (q == p + 1) := by
  obtain ⟨is, his⟩ := labelledBody_total nonempty args params
  obtain ⟨items', branches⟩ := labelledBody_isItem items his
  obtain ⟨g, hg⟩ := ofBody_total (show Style.looping.selfEdges = true from rfl) items' fun j hj hb =>
    labels j (branches j hj hb) hb
  have block := fun b => block_ofBody (b := b) rfl items' hg
  refine ⟨_, g, his, bind_eq_ok.mpr ⟨_, his, hg⟩, ?_, fun b hb => ⟨(block b hb).1, (block b hb).2.1⟩,
    fun p q n m l hn hm hml => ?_⟩
  · obtain ⟨i, js, rfl, ho⟩ := labelledBody_head his
    rw [blocks_ofBody rfl hg, Block.flatten_split, trimmed_cons, trimmed_cons]
    simp [ho]
  · have edges := recorded_ofBody (p := p) (q := q) items' hg
    obtain ⟨⟨i, js, -, e, -⟩, unbroken, -⟩ := block n.block (mem_map_of_mem (mem_of_getElem? hn))
    have hq : q < g.blocks.length := by simpa [blocks] using (List.getElem?_eq_some_iff.mp hm).1
    have same : ways g.blocks p q = n.block.exits l (q == p + 1) := by
      rw [exits_eq (by simp [e]) unbroken, ways, targetsAt, fallsAt, getD_blocks hn, labelAt,
        getD_blocks hm, ← Node.label, hml, count_map_of_injective _ _ fun _ _ => Option.some.inj]
      simp [hq]
    rw [← same]
    exact ⟨by simpa [recorded, hn] using edges true, by simpa [recorded, hm] using edges false⟩

/-- Jumps forward and back, to itself and twice to one block, with an operation that is dead. -/
def knotted : Func where
  args := some [Sample.truthParam "c"]
  instrs := some [
    Sample.branch "c" "turn" "turn",
    Sample.plain "nop",
    .labelled "turn",
    Sample.branch "c" "turn" "stop",
    .labelled "stop",
    Sample.branch "c" "turn" "entry"]

theorem labelledGraph_exact_knotted : ∃ g n m, knotted.labelledGraph .looping true = .ok g ∧
    g[1]? = some n ∧ g[2]? = some m ∧ m.label = some "turn" ∧
      n.succ.count 2 = 2 ∧ m.pred.count 1 = 2 ∧ m.pred.count 2 = 1 := by
  obtain ⟨is, g, -, h, -, -, edges⟩ := @labelledGraph_exact knotted true
    (by decide) (by simp [knotted]) knotted.args rfl
    (by simp [knotted]) (by simp [knotted, Instr.Branches, Instr.labelled])
  obtain ⟨g', n, m, h', hn, hm, hl, bn, bm⟩ : ∃ g n m, knotted.labelledGraph .looping true = .ok g ∧
      g[1]? = some n ∧ g[2]? = some m ∧ m.label = some "turn" ∧
      n.block.exits "turn" true = 2 ∧ m.block.exits "turn" false = 1 :=
    ⟨_, _, _, rfl, rfl, rfl, rfl, rfl, rfl⟩
  obtain rfl : g = g' := Except.ok.inj (h.symm.trans h')
  obtain ⟨out, into⟩ := edges 1 2 n m "turn" hn hm hl
  exact ⟨g, n, m, h, hn, hm, hl, out.trans bn, into.trans bn, (edges 2 2 m m "turn" hm hm hl).2.trans bm⟩

end FlowGraph

end BrilKit
