import BrilKit.FlowGraph.Build
import BrilKit.Proofs.Block.Split
import BrilKit.Proofs.Run.Machine
import Mathlib.Data.List.Count

/-!
# The flow graph of a body

The edges of a flow graph are counted: as often as a block names the label of another one, and once
if control falls through to it, there is an edge, and it is recorded at both ends. `recorded` counts
what a graph has, `ways` what the blocks call for, and `recorded_ofBody` says that they are equal.

The count holds at every moment while a body is read: `Builder.Exact` is the invariant of the pass.
`Wired` says what linking adds, once for each way of linking; `Exact.push`, `Exact.next` and
`Exact.label` are the steps of the pass, which `take_exact` puts together.
-/

namespace BrilKit

open List Outcome

instance (i : Instr) : Decidable i.Branches := inferInstanceAs (Decidable (_ ∨ _))

/-- The labels that control can be sent to. -/
def Instr.targets (i : Instr) : List String := if i.Branches then i.labels.getD [] else []

lemma Instr.targets_of_not_isTerminator {i : Instr} (h : i.isTerminator = false) :
    i.targets = [] := by
  refine if_neg fun hb => ?_
  rw [isTerminator_of_branches hb] at h
  cases h

lemma Instr.targets_eq {i : Instr} {ls : List String} (term : i.isTerminator = true)
    (ret : ¬ i.hasOp "ret") (hls : i.getLabels = .ok ls) : i.targets = ls := by
  have hb : i.Branches := by
    cases ho : i.op with
    | none => simp [Instr.isTerminator, ho] at term
    | some op => exact branches_of_isTerminator ho term fun e => ret (by simp [hasOp, ho, e])
  rw [targets, if_pos hb, show i.labels = some ls from ofOption_eq_ok.mp hls]
  rfl

lemma Func.exists_cons {f : Func} (h : f.instrs.getD [] ≠ []) :
    ∃ first is, f.instrs = some (first :: is) := by
  cases hi : f.instrs with
  | none => simp [hi] at h
  | some is =>
    cases is with
    | nil => simp [hi] at h
    | cons first is => exact ⟨first, is, rfl⟩

namespace FlowGraph

open Block (Gathered)

variable {ns : List Node} {bs : List Block} {b : Block} {k p q : Nat} {i : Instr} {l : String}
  {start : Bool} {n : Node}

def Edge (g : FlowGraph) (p q : Nat) : Prop := ∃ n, g[p]? = some n ∧ q ∈ n.succ

def Into (g : FlowGraph) (p q : Nat) : Prop := ∃ n, g[q]? = some n ∧ p ∈ n.pred

/-- An edge between two blocks that is recorded at both ends. -/
def Link (g : FlowGraph) (p q : Nat) : Prop := Edge g p q ∧ Into g p q

lemma slot_eq_ok {ns : List Nat} {i : Nat} : slot ns k = .ok i ↔ ns.idxOf? k = some i := by
  unfold slot
  cases ns.idxOf? k <;> simp

lemma getElem?_of_idxOf? {ns : List Nat} {i : Nat} (h : ns.idxOf? k = some i) :
    ns[i]? = some k := by
  obtain ⟨hi, hk, _⟩ := findIdx?_eq_some_iff_getElem.mp h
  rw [getElem?_eq_getElem hi]
  exact congrArg some (by simpa using hk)

/-! ### Counting edges -/

/-- How often an edge is recorded, at the block where it starts or at the one where it ends. -/
def recorded (ns : List Node) (p q : Nat) (start : Bool) : Nat :=
  if start then (ns[p]?.elim [] Node.succ).count q else (ns[q]?.elim [] Node.pred).count p

/-- How often an edge is recorded in lists of blocks behind and before a block. -/
def recordedAt (k : Nat) (succ pred : List Nat) (p q : Nat) (start : Bool) : Nat :=
  if start then if p = k then succ.count q else 0 else if q = k then pred.count p else 0

lemma edge_iff : Edge ns p q ↔ 0 < recorded ns p q true := by
  unfold Edge recorded
  cases ns[p]? <;> simp

lemma into_iff : Into ns p q ↔ 0 < recorded ns p q false := by
  unfold Into recorded
  cases ns[q]? <;> simp

lemma recorded_modify {f : Node → Node} {succ pred : List Nat} (hk : k < ns.length)
    (hs : ∀ n, (f n).succ = n.succ ++ succ) (hp : ∀ n, (f n).pred = n.pred ++ pred) :
    recorded (ns.modify k f) p q start = recorded ns p q start + recordedAt k succ pred p q start := by
  have side : ∀ {g : Node → List Nat} {l r}, (∀ n, g (f n) = g n ++ l) →
      ((ns.modify k f)[r]?.elim [] g) = ns[r]?.elim [] g ++ if r = k then l else [] := by
    intro g l r h
    rw [getElem?_modify]
    by_cases hr : r = k
    · simp [hr, getElem?_eq_getElem hk, h]
    · cases ns[r]? <;> simp [hr, Ne.symm hr]
  cases start <;> simp [recorded, recordedAt, side hs, side hp, apply_ite (count _)]

lemma getElem?_concat {α : Type} {as : List α} {a : α} {r : Nat} :
    (as ++ [a])[r]? = if r = as.length then some a else as[r]? := by
  grind

lemma recorded_concat : recorded (ns ++ [n]) p q start =
    recorded ns p q start + recordedAt ns.length n.succ n.pred p q start := by
  have side : ∀ {g : Node → List Nat} {r}, (ns ++ [n])[r]?.elim [] g =
      ns[r]?.elim [] g ++ if r = ns.length then g n else [] := by
    intro g r
    rw [getElem?_concat]
    split
    · next h => simp [h]
    · simp
  cases start <;> simp [recorded, recordedAt, side, apply_ite (count _)]

/-! ### The ways of control between blocks -/

def targetsAt (bs : List Block) (p : Nat) : List String := (bs.getD p []).flatMap Instr.targets

def labelAt (bs : List Block) (q : Nat) : Option String := (bs.getD q []).head?.bind Instr.label

def fallsAt (bs : List Block) (p : Nat) : Bool := (bs.getD p []).all fun i => !i.isTerminator

/-- The number of ways that control can take from one block to another: one for each time that the
label is named, and one if the first block has no terminator and the second is the next. -/
def ways (bs : List Block) (p q : Nat) : Nat :=
  ((targetsAt bs p).map some).count (labelAt bs q) +
    if q = p + 1 ∧ q < bs.length ∧ fallsAt bs p then 1 else 0

lemma getD_concat : (bs ++ [b]).getD p [] = if p = bs.length then b else bs.getD p [] := by
  rw [List.getD, getElem?_concat]
  split <;> rfl

lemma targetsAt_concat : targetsAt (bs ++ [b]) p =
    if p = bs.length then b.flatMap Instr.targets else targetsAt bs p := by
  rw [targetsAt, getD_concat, apply_ite (flatMap Instr.targets)]
  rfl

lemma labelAt_concat : labelAt (bs ++ [b]) q =
    if q = bs.length then b.head?.bind Instr.label else labelAt bs q := by
  rw [labelAt, getD_concat, apply_ite fun b : Block => b.head?.bind Instr.label]
  rfl

lemma fallsAt_concat : fallsAt (bs ++ [b]) p =
    if p = bs.length then b.all fun i => !i.isTerminator else fallsAt bs p := by
  rw [fallsAt, getD_concat, apply_ite fun b : Block => b.all fun i => !i.isTerminator]
  rfl

lemma ways_eq_zero (h : bs.length ≤ p ∨ bs.length ≤ q) : ways bs p q = 0 := by
  have none : ¬ (q = p + 1 ∧ q < bs.length ∧ fallsAt bs p) := by
    omega
  rw [ways, if_neg none]
  obtain h | h := h
  · simp [targetsAt, getElem?_eq_none h]
  · simp [labelAt, getElem?_eq_none h, count_eq_zero_of_not_mem]

lemma targetsAt_push : targetsAt (bs ++ [b ++ [i]]) p =
    targetsAt (bs ++ [b]) p ++ if p = bs.length then i.targets else [] := by
  by_cases hp : p = bs.length <;> simp [targetsAt_concat, hp]

lemma labelAt_push (hi : i.label = none ∨ b ≠ []) :
    labelAt (bs ++ [b ++ [i]]) q = labelAt (bs ++ [b]) q := by
  rw [labelAt_concat, labelAt_concat]
  cases b <;> simp_all

/-- An operation at the end of the last block. -/
lemma ways_push (hi : i.label = none) : ways (bs ++ [b ++ [i]]) p q = ways (bs ++ [b]) p q +
    if p = bs.length then (i.targets.map some).count (labelAt (bs ++ [b]) q) else 0 := by
  unfold ways
  rw [labelAt_push (.inl hi), targetsAt_push, fallsAt_concat, fallsAt_concat, map_append, count_append]
  by_cases hp : p = bs.length
  · have last : ¬ (q = bs.length + 1 ∧ q < bs.length + 1) := by omega
    simp only [hp, if_true, length_append, length_singleton, ← and_assoc, last, false_and]
    omega
  · simp [hp]

lemma getD_next : (bs ++ [[]]).getD p [] = bs.getD p [] := by
  rw [getD_concat]
  split
  · next h => simp [h]
  · rfl

lemma targetsAt_next : targetsAt (bs ++ [[]]) p = targetsAt bs p := congrArg _ getD_next

lemma labelAt_next : labelAt (bs ++ [[]]) q = labelAt bs q :=
  congrArg (fun b : Block => b.head?.bind Instr.label) getD_next

/-- A block that has not begun. -/
lemma ways_next : ways (bs ++ [[]]) p q = ways bs p q +
    if p + 1 = bs.length ∧ q = bs.length ∧ fallsAt bs p then 1 else 0 := by
  have falls : fallsAt (bs ++ [[]]) p = fallsAt bs p :=
    congrArg (fun b : Block => b.all fun i => !i.isTerminator) getD_next
  unfold ways
  rw [targetsAt_next, labelAt_next, falls, length_append]
  grind

/-- A label that begins the last block. -/
lemma ways_label (ho : i.op = none) (hl : i.label = some l) :
    ways (bs ++ [[i]]) p q = ways (bs ++ [[]]) p q +
      if q = bs.length then (targetsAt (bs ++ [[]]) p).count l else 0 := by
  have term : i.isTerminator = false := by simp [Instr.isTerminator, ho]
  have targets : targetsAt (bs ++ [[i]]) p = targetsAt (bs ++ [[]]) p := by
    simp [targetsAt_concat, Instr.targets_of_not_isTerminator term]
  have falls : fallsAt (bs ++ [[i]]) p = fallsAt (bs ++ [[]]) p := by simp [fallsAt_concat, term]
  unfold ways
  rw [targets, falls, labelAt_concat, labelAt_concat]
  by_cases hq : q = bs.length
  · simp only [hq, if_true, head?_cons, Option.bind_some, hl, head?_nil,
      count_map_of_injective _ _ fun _ _ => Option.some.inj, length_append]
    simp [count_eq_zero_of_not_mem]
    omega
  · simp [hq]

/-! ### The pass over a body -/

namespace Builder

variable {style : Style} {c c' d : Builder} {e e' : Nat → Nat → Nat} {f : Node → Node}
  {ps : List Nat} {t : Table (Option String) (List Nat)} {key : Option String} {ls : List String}
  {n : Node}

def nodes (c : Builder) : List Node := c.done ++ [c.current]

def blocksRead (c : Builder) : List Block := c.nodes.map Node.block

def addSucc (q : Nat) (n : Node) : Node := { n with succ := n.succ ++ [q] }

def addPred (p : Nat) (n : Node) : Node := { n with pred := n.pred ++ [p] }

def addOp (i : Instr) (n : Node) : Node := { n with block := n.block ++ [i] }

lemma index_lt : c.index < c.nodes.length := by simp [index, nodes]

lemma blocksRead_eq (c : Builder) :
    c.blocksRead = c.done.map Node.block ++ [c.current.block] := by
  simp [blocksRead, nodes]

lemma nodes_current (f : Node → Node) :
    ({ c with current := f c.current } : Builder).nodes = c.nodes.modify c.index f := by
  unfold nodes index
  induction c.done with
  | nil => rfl
  | cons m done ih => simpa using ih

/-- Edges have been added. -/
structure Wired (e : Nat → Nat → Nat) (c c' : Builder) : Prop where
  blocks : c'.blocksRead = c.blocksRead
  jumps : c'.jumps = c.jumps
  placed : c'.placed = c.placed
  edges : ∀ p q start, recorded c'.nodes p q start = recorded c.nodes p q start + e p q

namespace Wired

lemma refl : Wired (fun _ _ => 0) c c := ⟨rfl, rfl, rfl, fun _ _ _ => rfl⟩

lemma trans (h : Wired e c d) (h' : Wired e' d c') : Wired (fun p q => e p q + e' p q) c c' where
  blocks := h'.blocks.trans h.blocks
  jumps := h'.jumps.trans h.jumps
  placed := h'.placed.trans h.placed
  edges p q start := by rw [h'.edges, h.edges, Nat.add_assoc]

lemma congr (h : Wired e c c') (same : ∀ p q, e p q = e' p q) : Wired e' c c' := by
  rwa [show e = e' from funext fun p => funext (same p)] at h

lemma index_eq (h : Wired e c c') : c'.index = c.index := by
  simpa [blocksRead, nodes, index] using congrArg List.length h.blocks

/-- An edge that is added at both its ends. -/
lemma link (hp : p < c.nodes.length) (hq : q < c.nodes.length)
    (nodes : c'.nodes = (c.nodes.modify p (addSucc q)).modify q (addPred p) ∨
      c'.nodes = (c.nodes.modify q (addPred p)).modify p (addSucc q))
    (jumps : c'.jumps = c.jumps) (placed : c'.placed = c.placed) :
    Wired (fun p' q' => if p' = p ∧ q' = q then 1 else 0) c c' := by
  have blocks : ∀ ns : List Node, (ns.modify p (addSucc q)).map Node.block = ns.map Node.block ∧
      (ns.modify q (addPred p)).map Node.block = ns.map Node.block := fun ns => by
    constructor <;> exact ext_getElem? fun k => by
      simp only [getElem?_map, getElem?_modify]
      cases ns[k]? <;> simp [addSucc, addPred, apply_ite Node.block]
  have succ : ∀ {ns k p' q' start}, k < ns.length → recorded (ns.modify k (addSucc q)) p' q' start =
      recorded ns p' q' start + recordedAt k [q] [] p' q' start := fun hk =>
    recorded_modify hk (fun _ => rfl) fun _ => (append_nil _).symm
  have pred : ∀ {ns k p' q' start}, k < ns.length → recorded (ns.modify k (addPred p)) p' q' start =
      recorded ns p' q' start + recordedAt k [] [p] p' q' start := fun hk =>
    recorded_modify hk (fun _ => (append_nil _).symm) fun _ => rfl
  refine ⟨?_, jumps, placed, fun p' q' start => ?_⟩
  · obtain e | e := nodes <;> rw [blocksRead, e] <;> simp only [(blocks _).1, (blocks _).2] <;> rfl
  · have both : recorded c'.nodes p' q' start = recorded c.nodes p' q' start +
        recordedAt p [q] [] p' q' start + recordedAt q [] [p] p' q' start := by
      obtain e | e := nodes <;> rw [e]
      · rw [pred (by simpa using hq), succ hp]
      · rw [succ (by simpa using hp), pred hq, Nat.add_right_comm]
    rw [both]
    cases start <;> simp [recordedAt, count_cons] <;> grind

end Wired

lemma modifyDone_eq_ok (h : modifyDone c k f = .ok c') :
    k < c.index ∧ c'.nodes = c.nodes.modify k f ∧ c'.jumps = c.jumps ∧ c'.placed = c.placed := by
  unfold modifyDone at h
  split at h
  · next n hn =>
    cases h
    obtain ⟨hk, -⟩ := List.getElem?_eq_some_iff.mp hn
    refine ⟨hk, ?_, rfl, rfl⟩
    rw [nodes, nodes, modify_eq_set_getElem?, getElem?_append_left hk, hn]
    exact (set_append_left k (f n) hk).symm
  · cases h

lemma linkBack_wired (h : linkBack style c q = .ok c') :
    Wired (fun p' q' => if p' = c.index ∧ q' = q then 1 else 0) c c' := by
  unfold linkBack at h
  dsimp only at h
  split at h
  · next self =>
    obtain ⟨-, rfl⟩ : style.selfEdges = true ∧ q = c.index := by simpa using self
    cases h
    refine .link index_lt index_lt (.inl ?_) rfl rfl
    rw [← nodes_current]
    exact nodes_current (c := { c with current := addSucc c.index c.current }) (addPred c.index)
  · obtain ⟨hq, nodes, hj, hp⟩ := modifyDone_eq_ok h
    have e := nodes_current (c := c) (addSucc q)
    exact .link index_lt (Nat.lt_trans hq (index_lt (c := c))) (.inl (nodes.trans (congrArg _ e))) hj hp

lemma linkForward_wired (h : linkForward c p = .ok c') :
    Wired (fun p' q' => if p' = p ∧ q' = c.index then 1 else 0) c c' := by
  obtain ⟨hp, nodes, hj, hp'⟩ := modifyDone_eq_ok h
  have e := nodes_current (c := c) (addPred p)
  exact .link (Nat.lt_trans hp (index_lt (c := c))) index_lt (.inr (nodes.trans (congrArg _ e))) hj hp'

lemma linkBack_lt (hs : style.selfEdges = false) (h : linkBack style c q = .ok c') : q < c.index := by
  rw [linkBack, hs] at h
  exact (modifyDone_eq_ok h).1

/-- Without self-edges, links lead to blocks that are complete. -/
lemma foldlM_linkBack {qs : List Nat} (h : qs.foldlM (linkBack style) c = .ok c') :
    Wired (fun p q => if p = c.index then qs.count q else 0) c c' ∧
      (style.selfEdges = false → ∀ q ∈ qs, q < c.index) := by
  induction qs generalizing c with
  | nil =>
    cases foldlM_nil_eq_ok.mp h
    exact ⟨Wired.refl.congr (by simp), by simp⟩
  | cons r qs ih =>
    obtain ⟨d, hd, h⟩ := foldlM_cons_eq_ok.mp h
    have w := linkBack_wired hd
    obtain ⟨w', lt⟩ := ih h
    rw [w.index_eq] at w' lt
    refine ⟨(w.trans w').congr fun p q => ?_, fun hs =>
      forall_mem_cons.mpr ⟨linkBack_lt hs hd, lt hs⟩⟩
    by_cases hp : p = c.index <;> simp [hp, count_cons, Nat.add_comm, eq_comm (a := r)]

lemma foldlM_linkForward (h : ps.foldlM linkForward c = .ok c') :
    Wired (fun p q => if q = c.index then ps.count p else 0) c c' ∧ ∀ p ∈ ps, p < c.index := by
  induction ps generalizing c with
  | nil =>
    cases foldlM_nil_eq_ok.mp h
    exact ⟨Wired.refl.congr (by simp), by simp⟩
  | cons r ps ih =>
    obtain ⟨d, hd, h⟩ := foldlM_cons_eq_ok.mp h
    have w := linkForward_wired hd
    obtain ⟨w', lt⟩ := ih h
    rw [w.index_eq] at w' lt
    refine ⟨(w.trans w').congr fun p q => ?_, forall_mem_cons.mpr ⟨(modifyDone_eq_ok hd).1, lt⟩⟩
    by_cases hq : q = c.index <;> simp [hq, count_cons, Nat.add_comm, eq_comm (a := r)]

lemma count_note {key' : Option String} {m n : Nat} :
    ((note t key n).getD key' []).count m =
      (t.getD key' []).count m + if key' = key ∧ m = n then 1 else 0 := by
  rw [note, Table.getD_alter_append]
  by_cases h : key' = key
  · simp [h, count_cons, eq_comm (a := n)]
  · simp [h]

lemma jump_wired (h : jump style c l = .ok c') :
    Wired (fun p q => if p = c.index then (c.placed.getD (some l) []).count q else 0)
      { c with jumps := note c.jumps (some l) c.index } c' :=
  (foldlM_linkBack h).1

/-- The labels that jumps name are on record, and each jump is linked to the blocks placed so far. -/
lemma foldlM_jump (h : ls.foldlM (jump style) c = .ok c') :
    Wired (fun p q => if p = c.index then (ls.flatMap fun l => c.placed.getD (some l) []).count q
        else 0) { c with jumps := c'.jumps } c' ∧
      (∀ l p, (c'.jumps.getD (some l) []).count p =
        (c.jumps.getD (some l) []).count p + if p = c.index then ls.count l else 0) ∧
      (style.selfEdges = false → ∀ l ∈ ls, ∀ q ∈ c.placed.getD (some l) [], q < c.index) := by
  induction ls generalizing c with
  | nil =>
    cases foldlM_nil_eq_ok.mp h
    exact ⟨Wired.refl.congr (by simp), by simp, by simp⟩
  | cons m ls ih =>
    obtain ⟨d, hd, h⟩ := foldlM_cons_eq_ok.mp h
    have w := jump_wired hd
    have w₀ : Wired _ { c with jumps := c'.jumps } { d with jumps := c'.jumps } :=
      ⟨w.blocks, rfl, w.placed, w.edges⟩
    have index : d.index = c.index := w.index_eq
    have placed : d.placed = c.placed := w.placed
    obtain ⟨w', hj, lt⟩ := ih h
    rw [index, placed] at lt
    refine ⟨(w₀.trans w').congr fun p q => ?_, fun l p => ?_, fun hs =>
      forall_mem_cons.mpr ⟨(foldlM_linkBack hd).2 hs, lt hs⟩⟩
    · rw [index, placed, flatMap_cons, count_append]
      by_cases hp : p = c.index <;> simp [hp]
    · rw [hj, w.jumps, count_note, index, count_cons]
      by_cases hp : p = c.index
      · simp only [hp, and_true, if_true, Option.some.injEq, beq_iff_eq, eq_comm (a := l)]
        omega
      · simp [hp]

/-- A block that is placed under its label is found once for each time that the label is named. -/
lemma count_flatMap_placed {o : Option String}
    (placed : ∀ l, (c.placed.getD (some l) []).count q = if o = some l then 1 else 0) :
    (ls.flatMap fun l => c.placed.getD (some l) []).count q = (ls.map some).count o := by
  induction ls with
  | nil => rfl
  | cons m ls ih => 
    rw [flatMap_cons, count_append, placed, ih, map_cons, count_cons, Nat.add_comm]
    simp [eq_comm (a := o)]

/-- What becomes of an operation: it is left out, or it goes to the block at hand and ends it if it is
a terminator. -/
lemma takeOp_cases (h : takeOp style c i = .ok c') :
    (style.dropsDead = true ∧ c.current.block = []) ∧ c' = c ∨
    ¬ (style.dropsDead = true ∧ c.current.block = []) ∧ ∃ d,
      i.targets.foldlM (jump style) c = .ok d ∧
      c' = if i.isTerminator then (d.push i).close { block := [] } else d.push i := by
  unfold takeOp at h
  by_cases hdead : style.dropsDead = true ∧ c.current.block = []
  · rw [if_pos (by simpa using hdead)] at h
    cases h
    exact .inl ⟨hdead, rfl⟩
  rw [if_neg (by simpa using hdead)] at h
  refine .inr ⟨hdead, ?_⟩
  split at h
  · next term =>
    split at h
    · next ret =>
      cases h
      have none : i.targets = [] := if_neg fun hb => by
        simp only [Instr.hasOp, beq_iff_eq] at ret
        simp [Instr.Branches, ret] at hb
      exact ⟨c, by rw [none]; rfl, by simp [term]⟩
    · next ret =>
      obtain ⟨ls, hls, h⟩ := of_bind h
      obtain ⟨d, hd, h⟩ := of_bind h
      cases h
      exact ⟨d, by rwa [Instr.targets_eq term ret hls], by simp [term]⟩
  · next term =>
    cases h
    have term : i.isTerminator = false := by simpa using term
    exact ⟨c, by rw [Instr.targets_of_not_isTerminator term]; rfl, by simp [term]⟩

/-- The block that a label is put into: the one at hand if it has not begun, or the next one, to which
control falls through. -/
def opened (c : Builder) : Builder :=
  if c.current.block.isEmpty then c
  else ({ c with current := addSucc (c.index + 1) c.current } : Builder).close
    { block := [], pred := [c.index] }

lemma labelKey_eq_ok :
    labelKey i = .ok key ↔ key = i.label ∧ (i.label.isSome ∨ (i.extra.lookup "label").isSome) := by
  unfold labelKey
  cases i.label with
  | some l => simp [eq_comm (a := key)]
  | none => cases i.extra.lookup "label" <;> simp [eq_comm (a := key)]

lemma takeLabel_eq_ok : takeLabel c i = .ok c' ↔
    (i.label.isSome ∨ (i.extra.lookup "label").isSome) ∧
    (c.jumps.getD i.label []).foldlM linkForward
      { c.opened.push i with placed := note c.placed i.label c.opened.index } = .ok c' := by
  unfold takeLabel opened
  simp only [bind_eq_ok, labelKey_eq_ok, and_assoc]
  by_cases hempty : c.current.block = []
  · simp [hempty, index, push]
  · simp [hempty, index, push, close, addSucc]

/-- The blocks that have been read: those that are complete, and the one at hand. -/
def gathered (c : Builder) : Gathered := ⟨c.done.map Node.block, c.current.block⟩

lemma gathered_of_blocksRead (h : c'.blocksRead = c.blocksRead) : c'.gathered = c.gathered := by
  rw [blocksRead_eq, blocksRead_eq] at h
  obtain ⟨hdone, hcurrent⟩ := append_inj' h rfl
  rw [gathered, gathered, hdone, List.cons.inj hcurrent |>.1]

lemma gathered_take (h : take style c i = .ok c') : c'.gathered =
    if i.isOp ∧ style.dropsDead ∧ c.current.block = [] then c.gathered else c.gathered.take i := by
  unfold take at h
  split at h
  · next ho =>
    simp only [ho, true_and]
    obtain ⟨dead, rfl⟩ | ⟨kept, d, hd, rfl⟩ := takeOp_cases h
    · rw [if_pos dead]
    · have same : d.gathered = c.gathered := gathered_of_blocksRead
        (foldlM_invariant (fun d : Builder => d.blocksRead = c.blocksRead)
          (fun _ _ _ _ ha h => (jump_wired h).blocks.trans ha) hd rfl)
      rw [if_neg kept, ← same]
      cases term : i.isTerminator <;>
        simp [gathered, push, close, Gathered.take, ho, term]
  · next ho =>
    obtain ⟨-, h⟩ := takeLabel_eq_ok.mp h
    rw [gathered_of_blocksRead (foldlM_linkForward h).1.blocks]
    by_cases hempty : c.current.block = []
    · simp [gathered, opened, push, Gathered.take, ho, hempty]
    · simp [gathered, opened, push, close, Gathered.take, ho, hempty, addSucc]

/-- The record of labels is that of the blocks read so far. -/
def Placed (c : Builder) : Prop := ∀ l q, (c.placed.getD (some l) []).count q =
  if labelAt c.blocksRead q = some l then 1 else 0

/-- The record of labels and jumps, and the edges at both ends, are those of the blocks read so
far. -/
structure Exact (c : Builder) : Prop where
  placed : Placed c
  jumps : ∀ l p, (c.jumps.getD (some l) []).count p = (targetsAt c.blocksRead p).count l
  edges : ∀ p q start, recorded c.nodes p q start = ways c.blocksRead p q

lemma placed_empty : Placed {} := fun l q => by
  cases q <;> simp [blocksRead, nodes, labelAt, Table.getD]

lemma exact_empty : Exact {} where
  placed := placed_empty
  jumps l p := by cases p <;> simp [blocksRead, nodes, targetsAt, Table.getD]
  edges p q start := by
    cases p <;> cases q <;> cases start <;> simp [blocksRead, nodes, ways, targetsAt, recorded]

lemma length_done : (c.done.map Node.block).length = c.index := length_map _

lemma blocksRead_push :
    (c.push i).blocksRead = c.done.map Node.block ++ [c.current.block ++ [i]] := blocksRead_eq _

lemma recorded_push {start : Bool} :
    recorded (c.push i).nodes p q start = recorded c.nodes p q start := by
  rw [show (c.push i).nodes = c.nodes.modify c.index (addOp i) from nodes_current (addOp i),
    recorded_modify (f := addOp i) index_lt (fun _ => (append_nil _).symm)
      fun _ => (append_nil _).symm]
  cases start <;> simp [recordedAt]

lemma nodes_close : (c.close n).nodes = c.nodes ++ [n] := by simp [nodes, close]

lemma length_nodes : c.nodes.length = c.index + 1 := by simp [nodes, index]

lemma blocksRead_next (hf : ∀ m, (f m).block = m.block) (hn : n.block = []) :
    (({ c with current := f c.current } : Builder).close n).blocksRead = c.blocksRead ++ [[]] := by
  simp [blocksRead, nodes, close, hf, hn]

lemma blocksRead_label (empty : c.current.block = [])
    (h : ps.foldlM linkForward { c.push i with placed := t } = .ok c') :
    c.blocksRead = c.done.map Node.block ++ [[]] ∧
      c'.blocksRead = c.done.map Node.block ++ [[i]] := by
  refine ⟨by rw [blocksRead_eq, empty], (foldlM_linkForward h).1.blocks.trans ?_⟩
  exact Eq.trans (b := (c.push i).blocksRead) rfl (by rw [blocksRead_push, empty, nil_append])

namespace Placed

variable (pl : Placed c)
include pl

lemma push (hi : i.label = none ∨ d.current.block ≠ [])
    (h : i.targets.foldlM (jump style) c = .ok d) : Placed (d.push i) := fun l q => by
  obtain ⟨w, -⟩ := foldlM_jump h
  rw [blocksRead_push, labelAt_push hi, ← d.blocksRead_eq, w.blocks]
  exact (congrArg (fun t : Table _ _ => count q (t.getD (some l) [])) w.placed).trans (pl l q)

lemma next {f : Node → Node} {n : Node} (hf : ∀ m, (f m).block = m.block) (hn : n.block = []) :
    Placed (({ c with current := f c.current } : Builder).close n) := fun l q => by
  rw [blocksRead_next hf hn, labelAt_next]
  exact pl l q

lemma opened : Placed c.opened ∧ c.opened.current.block = [] ∧ c.opened.jumps = c.jumps ∧
    c.opened.placed = c.placed := by
  unfold Builder.opened
  split
  · next hempty => exact ⟨pl, by simpa using hempty, rfl, rfl⟩
  · exact ⟨pl.next (fun _ => rfl) rfl, rfl, rfl, rfl⟩

lemma label (empty : c.current.block = []) (h : (c.jumps.getD i.label []).foldlM linkForward
    { c.push i with placed := note c.placed i.label c.index } = .ok c') : Placed c' := fun l q => by
  obtain ⟨read, read'⟩ := blocksRead_label empty h
  rw [(foldlM_linkForward h).1.placed, count_note, pl, read, read', labelAt_concat, labelAt_concat,
    length_done]
  by_cases hq : q = c.index <;> simp [hq, eq_comm]

end Placed

namespace Exact

variable (ex : Exact c)
include ex

lemma push (hi : i.label = none) (h : i.targets.foldlM (jump style) c = .ok d) :
    Exact (d.push i) := by
  obtain ⟨w, hj, -⟩ := foldlM_jump h
  have read : d.blocksRead = c.blocksRead := w.blocks
  have index : d.index = c.index := w.index_eq
  have done := d.blocksRead_eq
  refine ⟨ex.placed.push (.inl hi) h, fun l p => ?_, fun p q start => ?_⟩
  · show count p (d.jumps.getD (some l) []) = _
    rw [blocksRead_push, targetsAt_push, ← done, read, length_done, index, hj, ex.jumps,
      count_append, apply_ite (count l), count_nil]
  · rw [recorded_push, w.edges, blocksRead_push, ways_push hi, ← done, read, length_done, index,
      ← ex.edges, count_flatMap_placed (ex.placed · q)]
    rfl

/-- A new block, with an edge to it if control falls through. -/
lemma next {e : Nat} {f : Node → Node} (he : e = if fallsAt c.blocksRead c.index then 1 else 0)
    (hf : ∀ n, f n = { n with succ := n.succ ++ replicate e (c.index + 1) }) :
    Exact (({ c with current := f c.current } : Builder).close
      { block := [], pred := replicate e c.index }) := by
  have len : c.blocksRead.length = c.index + 1 := by simp [blocksRead, length_nodes]
  have nodes : ∀ n, (({ c with current := f c.current } : Builder).close n).nodes =
      c.nodes.modify c.index f ++ [n] := fun n => by rw [nodes_close, nodes_current]
  have block : ∀ n, (f n).block = n.block := fun n => by rw [hf]
  have read := blocksRead_next (c := c) (n := { block := [], pred := replicate e c.index }) block rfl
  refine ⟨ex.placed.next block rfl, fun l p => ?_, fun p q start => ?_⟩
  · rw [read, targetsAt_next]
    exact ex.jumps l p
  · rw [read, ways_next, ← ex.edges p q start, nodes, recorded_concat, recorded_modify index_lt
      (fun n => by rw [hf]) fun n => by rw [hf, append_nil], length_modify, length_nodes]
    cases start <;> simp only [recordedAt, count_replicate] <;> grind

lemma opened (hopen : ∀ i ∈ c.current.block, i.isTerminator = false) : Exact c.opened := by
  unfold Builder.opened
  split
  · exact ex
  · refine ex.next (e := 1) (f := addSucc (c.index + 1)) ?_ fun _ => rfl
    rw [blocksRead_eq, fallsAt_concat, if_pos length_done.symm, if_pos (by simpa using hopen)]

/-- The label of the block at hand, with the edges of the jumps to it. -/
lemma label (empty : c.current.block = []) (ho : i.op = none) (hl : i.label = some l)
    (h : (c.jumps.getD i.label []).foldlM linkForward
      { c.push i with placed := note c.placed i.label c.index } = .ok c') : Exact c' := by
  obtain ⟨w, -⟩ := foldlM_linkForward h
  obtain ⟨read, read'⟩ := blocksRead_label empty h
  have term : i.isTerminator = false := by simp [Instr.isTerminator, ho]
  refine ⟨ex.placed.label empty h, fun m p => ?_, fun p q start => ?_⟩
  · rw [w.jumps, read', targetsAt_concat]
    refine (ex.jumps m p).trans ?_
    rw [read, targetsAt_concat]
    simp [Instr.targets_of_not_isTerminator term]
  · rw [w.edges, read', ways_label ho hl, ← read, length_done, ← ex.edges p q start, hl]
    show recorded (c.push i).nodes p q start + (if q = c.index then _ else 0) = _
    rw [recorded_push, ex.jumps]

end Exact

/-- The block at hand goes on, and a block that has not begun follows a terminator. -/
structure Fit (g : Gathered) : Prop where
  current : ∀ i ∈ g.current, i.isTerminator = false
  last : g.current = [] → ∀ b ∈ g.done.getLast?, ∃ i ∈ b, i.isTerminator = true

lemma Fit.take {g : Gathered} (ft : Fit g) : Fit (g.take i) := by
  unfold Gathered.take
  split
  · split
    · next term => exact ⟨by simp, fun _ b hb => ⟨i, by simp_all [← (show g.current ++ [i] = b by simpa using hb)]⟩⟩
    · next term => exact ⟨forall_mem_append.mpr ⟨ft.current, by simpa using term⟩, by simp⟩
  · next ho =>
    have term := Instr.not_isTerminator (by simpa using ho)
    split <;> exact ⟨by simpa using term, by simp⟩

lemma take_exact (ex : Exact c) (ft : Fit c.gathered) (item : i.IsItem)
    (h : take style c i = .ok c') : Exact c' ∧ Fit c'.gathered := by
  refine ⟨?_, ?_⟩
  · unfold Builder.take at h
    obtain ⟨ho, l, hl⟩ | ⟨hl, op, ho⟩ := item
    · rw [if_neg (by simp [Instr.isOp, ho])] at h
      obtain ⟨-, empty, hj, hp⟩ := ex.placed.opened
      exact (ex.opened ft.current).label empty ho hl (by rw [hj, hp]; exact (takeLabel_eq_ok.mp h).2)
    · rw [if_pos (by simp [Instr.isOp, ho])] at h
      obtain ⟨-, rfl⟩ | ⟨-, d, hd, rfl⟩ := takeOp_cases h
      · exact ex
      · have ex' := ex.push hl hd
        split
        · next term =>
          have ends : fallsAt (d.push i).blocksRead (d.push i).index = false := by
            rw [blocksRead_eq, fallsAt_concat, if_pos length_done.symm]
            simp [Builder.push, term]
          simpa using ex'.next (e := 0) (f := id) (by simp [ends]) (by simp)
        · exact ex'
  · rw [gathered_take h]
    split
    · exact ft
    · exact ft.take

lemma foldlM_take_exact {is : List Instr} (items : ∀ j ∈ is, j.IsItem)
    (h : is.foldlM (Builder.take style) {} = .ok c) : Exact c ∧ Fit c.gathered :=
  foldlM_invariant (fun c => Exact c ∧ Fit c.gathered)
    (fun j hj _ _ both h => take_exact both.1 both.2 (items j hj) h) h
    ⟨exact_empty, by simp [gathered], by simp [gathered]⟩

end Builder

variable {style : Style} {is : List Instr} {g : FlowGraph}

lemma ofBody_eq_ok (h : ofBody style is = .ok g) :
    ∃ c : Builder, is.foldlM (Builder.take style) {} = .ok c ∧ c.graph = g := by
  obtain ⟨c, hc, h⟩ := of_bind h
  exact ⟨c, hc, pure_eq_ok.mp h⟩

/-- The edges of a graph are the ways of control between its blocks, at both ends. -/
theorem recorded_ofBody (items : ∀ j ∈ is, j.IsItem) (h : ofBody style is = .ok g) (start : Bool) :
    recorded g p q start = ways g.blocks p q := by
  obtain ⟨c, hc, rfl⟩ := ofBody_eq_ok h
  obtain ⟨ex, ft⟩ := Builder.foldlM_take_exact items hc
  have edges := ex.edges p q start
  unfold Builder.graph
  split
  · next hempty =>
    have hempty : c.current.block = [] := by simpa using hempty
    have ended : ¬ (p + 1 = (blocks c.done).length ∧ fallsAt (blocks c.done) p = true) := by
      rintro ⟨hp, falls⟩
      obtain ⟨b, hb⟩ : ∃ b, (blocks c.done)[p]? = some b := ⟨_, getElem?_eq_getElem (by omega)⟩
      have hlast : (blocks c.done).getLast? = some b := by
        rw [getLast?_eq_getElem?, ← hp, Nat.add_sub_cancel, hb]
      obtain ⟨i, hi, term⟩ := ft.last hempty b hlast
      simp only [fallsAt, List.getD, hb, Option.getD_some, all_eq_true] at falls
      simpa [term] using falls i hi
    have read : c.blocksRead = blocks c.done ++ [[]] := by
      rw [c.blocksRead_eq, hempty]
      rfl
    have len : (blocks c.done).length = c.done.length := length_map _
    rw [read, ways_next, if_neg fun all => ended ⟨all.1, all.2.2⟩, Nat.add_zero, Builder.nodes,
      recorded_concat] at edges
    by_cases h : (if start then p else q) = c.done.length
    · rw [ways_eq_zero (by cases start <;> simp_all)]
      cases start <;> simp_all [recorded]
    · cases start <;> simp only [Bool.false_eq_true, if_false, if_true] at h <;>
        simpa [recordedAt, h] using edges
  · exact edges

lemma Builder.blocks_graph (c : Builder) : c.graph.blocks = c.gathered.blocks := by
  unfold graph Gathered.blocks gathered
  split <;> simp [blocks]

/-- Every way that control can take is an edge of the graph. -/
structure Charted (g : FlowGraph) : Prop where
  jumps : ∀ (p q : Nat) n m, g[p]? = some n → g[q]? = some m → ∀ i ∈ n.block, i.Branches →
    ∀ l ∈ i.labels.getD [], m.label = some l → Link g p q
  falls : ∀ (p : Nat) n, g[p]? = some n → (∀ i ∈ n.block, i.isTerminator = false) →
    p + 1 < g.length → Link g p (p + 1)

lemma getD_blocks (hn : g[p]? = some n) : g.blocks.getD p [] = n.block := by
  simp [blocks, hn]

/-- The graph of a body has all the edges. -/
theorem ofBody_charted (items : ∀ j ∈ is, j.IsItem) (h : ofBody style is = .ok g) : Charted g := by
  have link : ∀ {p q}, 0 < ways g.blocks p q → Link g p q := fun {p q} hw => by
    have both := recorded_ofBody (p := p) (q := q) items h
    exact ⟨edge_iff.mpr (both true ▸ hw), into_iff.mpr (both false ▸ hw)⟩
  refine ⟨fun p q n m hn hm i hi hb l hl hml => link (Nat.add_pos_left ?_ _),
    fun p n hn hopen hp => link (Nat.add_pos_right _ ?_)⟩
  · rw [count_pos_iff, labelAt, getD_blocks hm, ← Node.label, hml, targetsAt, getD_blocks hn]
    refine mem_map.mpr ⟨l, mem_flatMap.mpr ⟨i, hi, ?_⟩, rfl⟩
    rwa [Instr.targets, if_pos hb]
  · rw [if_pos ⟨rfl, by simpa [blocks] using hp, by rw [fallsAt, getD_blocks hn]; simpa using hopen⟩]
    exact Nat.one_pos

/-- The edges of a graph are recorded at both ends. -/
theorem into_iff_edge (items : ∀ i ∈ is, i.IsItem) (h : ofBody style is = .ok g) :
    Into g p q ↔ Edge g p q := by
  rw [into_iff, edge_iff, recorded_ofBody items h, recorded_ofBody items h]

/-- No block leads to the first one if nothing names its label. -/
lemma pred_root {l : String} (items : ∀ j ∈ is, j.IsItem) (h : ofBody style is = .ok g)
    (hl : labelAt g.blocks 0 = some l)
    (free : ∀ b ∈ g.blocks, ∀ j ∈ b, j.Branches → l ∉ j.labels.getD []) (hn : g[0]? = some n) :
    n.pred = [] := by
  refine eq_nil_iff_forall_not_mem.mpr fun p hp => ?_
  have pos := into_iff.mp ⟨n, hn, hp⟩
  rw [recorded_ofBody items h, ways, if_neg (by simp), Nat.add_zero, hl, count_pos_iff] at pos
  obtain ⟨j, hj, target⟩ := mem_flatMap.mp (by simpa using pos : l ∈ targetsAt g.blocks p)
  rw [Instr.targets] at target
  split at target
  · next hb =>
    cases e : g.blocks[p]? with
    | none => simp [e] at hj
    | some b => exact free b (mem_of_getElem? e) j (by simpa [e] using hj) hb target
  · simp at target

end FlowGraph

end BrilKit
