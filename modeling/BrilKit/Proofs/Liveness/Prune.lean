import BrilKit.Proofs.FlowGraph.Complete
import BrilKit.Proofs.Liveness.Settle
import BrilKit.Proofs.Run.Trimmed

/-!
# Functions without operations whose results are not live

Main statement: a function keeps its meaning when operations are removed whose results are not live,
if an exit can be reached from every block. Where control cannot leave a loop, sets stay empty that
should not be, and operations are lost.
-/

namespace BrilKit

open List

namespace Liveness

open FlowGraph DeadCode

variable {g : FlowGraph} {s : State} {entry : String → List String} {is js : List Instr}
  {b c : Block} {out live behind : List String}

/-- What is left of the operations of a block, in front of what is left of the rest of a body. -/
lemma Cleared.sifted (h : Cleared out b c live) (core : ∀ i ∈ b, i.Core)
    (ops : ∀ i ∈ b, i.isOp = true)
    (ends : ∀ done i todo, b = done ++ i :: todo → i.isTerminator = true → todo = [])
    (targets : ∀ i ∈ b, i.Branches → ∀ l ∈ i.labels.getD [], entry l ⊆ out)
    (falls : (∀ i ∈ b, i.isTerminator = false) → behind ⊆ out) (rest : Sifted entry is js behind) :
    Sifted entry (b ++ is) (c ++ js) live := by
  induction h with
  | nil sub => exact rest.mono fun x hx => sub (falls (by simp) hx)
  | @label i _ _ _ _ ho => simp [ops i (by simp)] at ho
  | @keep i b c after live ho uses through h ih =>
    cases term : i.isTerminator with
    | true =>
      obtain rfl : b = [] := ends [] i b rfl term
      cases h with
      | nil sub =>
        refine .transfer term uses (fun branches l hl x hx => ?_) rest
        refine through x (sub (targets i (by simp) branches l hl hx)) ?_
        simp [(core i (by simp)).dest_of_terminator term]
    | false =>
      refine .keep ho term uses through (ih (fun j hj => core j (by simp [hj]))
        (fun j hj => ops j (by simp [hj])) (fun done j todo e => ends (i :: done) j todo (by simp [e]))
        (fun j hj => targets j (by simp [hj])) fun hopen => falls (forall_mem_cons.mpr ⟨term, hopen⟩))
  | @drop i d b c after live ho hd dead sub h ih =>
    have term : i.isTerminator = false := by
      cases term : i.isTerminator with
      | false => rfl
      | true => simp [(core i (by simp)).dest_of_terminator term] at hd
    refine .drop hd dead sub (ih (fun j hj => core j (by simp [hj]))
      (fun j hj => ops j (by simp [hj])) (fun done j todo e => ends (i :: done) j todo (by simp [e]))
      (fun j hj => targets j (by simp [hj])) fun hopen => falls (forall_mem_cons.mpr ⟨term, hopen⟩))

/-- Graphs whose blocks are those of a core body. -/
structure Sound (g : FlowGraph) : Prop where
  charted : Charted g
  core : ∀ i ∈ g.body, i.Core
  cut : ∀ n ∈ g, Block.WellCut n.block
  distinct : ∀ (p q : Nat) n m l, g[p]? = some n → g[q]? = some m → n.label = some l →
    m.label = some l → p = q

def entrySet (g : FlowGraph) (s : State) (l : String) : List String :=
  s.inAt (g.findIdx fun n => n.label == some l)

lemma entrySet_eq (sd : Sound g) {k : Nat} {n : Node} {l : String} (hn : g[k]? = some n)
    (hl : n.label = some l) : entrySet g s l = s.inAt k := by
  obtain ⟨hk, rfl⟩ := List.getElem?_eq_some_iff.mp hn
  have first : g.findIdx (fun n => n.label == some l) = k := by
    refine (findIdx_eq hk).mpr ⟨by simp [hl], fun j hj => ?_⟩
    rw [beq_eq_false_iff_ne]
    intro h
    have := sd.distinct j k _ _ l (getElem?_eq_getElem (Nat.lt_trans hj hk)) hn h hl
    omega
  rw [entrySet, first]

lemma entrySet_subset {l : String} {live : List String} (cs : Consistent g s)
    (h : ∀ (k : Nat) n, g[k]? = some n → n.label = some l → s.inAt k ⊆ live) :
    entrySet g s l ⊆ live := by
  unfold entrySet
  by_cases hlt : g.findIdx (fun n => n.label == some l) < g.length
  · refine h _ _ (getElem?_eq_getElem hlt) ?_
    simpa using findIdx_getElem (w := hlt)
  · have none : s.inAt (g.findIdx fun n => n.label == some l) = [] := by
      rw [State.inAt, getD_eq_default _ _ (cs.ins ▸ Nat.le_of_not_lt hlt)]
    simp [none]

section Sifted

variable (sd : Sound g) (cs : Consistent g s)
  (cleared : ∀ (k : Nat) n, g[k]? = some n → Cleared (s.outAt k) n.block (s.blockAt k) (s.inAt k))
  {n : Node}

include sd cs

lemma entrySet_subset_outAt {k : Nat} {i : Instr} {l : String} (hn : g[k]? = some n)
    (hi : i ∈ n.block) (branches : i.Branches) (hl : l ∈ i.labels.getD []) :
    entrySet g s l ⊆ s.outAt k := by
  refine entrySet_subset cs fun q m hm hq x hx => ?_
  have link := sd.charted.jumps k q n m hn hm i hi branches l hl hq
  exact cs.mem_outAt.mpr ⟨q, link.2, hx⟩

lemma inAt_subset_outAt {k : Nat} (hn : g[k]? = some n)
    (hopen : ∀ i ∈ n.block, i.isTerminator = false) : s.inAt (k + 1) ⊆ s.outAt k := by
  intro x hx
  by_cases hnext : k + 1 < g.length
  · exact cs.mem_outAt.mpr ⟨k + 1, (sd.charted.falls k n hn hopen hnext).2, hx⟩
  · rw [State.inAt, getD_eq_default _ _ (cs.ins ▸ Nat.le_of_not_lt hnext)] at hx
    simp at hx

lemma sifted_ops {k : Nat} (hn : g[k]? = some n) (within : ∀ j ∈ b, j ∈ n.block)
    (ops : ∀ j ∈ b, j.isOp = true)
    (ends : ∀ done j todo, b = done ++ j :: todo → j.isTerminator = true → todo = [])
    (whole : (∀ j ∈ b, j.isTerminator = false) → ∀ j ∈ n.block, j.isTerminator = false)
    (here : Cleared (s.outAt k) b c live) (rest : Sifted (entrySet g s) is js (s.inAt (k + 1))) :
    Sifted (entrySet g s) (b ++ is) (c ++ js) live :=
  here.sifted
    (fun j hj => sd.core j (mem_flatMap.mpr ⟨n, mem_of_getElem? hn, within j hj⟩)) ops ends
    (fun j hj branches _ hl => entrySet_subset_outAt sd cs hn (within j hj) branches hl)
    (fun hopen => inAt_subset_outAt sd cs hn (whole hopen)) rest

lemma sifted_block {k : Nat} (hn : g[k]? = some n)
    (here : Cleared (s.outAt k) n.block c (s.inAt k))
    (rest : Sifted (entrySet g s) is js (s.inAt (k + 1))) :
    Sifted (entrySet g s) (n.block ++ is) (c ++ js) (s.inAt k) := by
  have mem : n ∈ g := mem_of_getElem? hn
  have cut := sd.cut n mem
  obtain ⟨i, r, hblock⟩ := exists_cons_of_ne_nil cut.nonempty
  have core : i.Core := sd.core i (mem_flatMap.mpr ⟨n, mem, by simp [hblock]⟩)
  obtain ⟨ho, l, hl⟩ | ⟨-, op, ho⟩ := core.isItem
  · have first : entrySet g s l = s.inAt k := entrySet_eq sd hn (by simp [Node.label, hblock, hl])
    rw [hblock] at here cut ⊢
    cases here with
    | keep hop => simp [Instr.isOp, ho] at hop
    | drop hop => simp [Instr.isOp, ho] at hop
    | @label _ _ c behind _ _ sub inner =>
      have code : Sifted (entrySet g s) (r ++ is) (c ++ js) behind := by
        refine sifted_ops sd cs hn (fun j hj => by simp [hblock, hj]) cut.tail
          (fun done j todo e => cut.ends (i :: done) j todo (by simp [e])) (fun hopen j hj => ?_)
          inner rest
        rw [hblock] at hj
        obtain rfl | hj := mem_cons.mp hj
        · simp [Instr.isTerminator, ho]
        · exact hopen j hj
      exact .label ho hl (fun x hx => first ▸ sub hx) (fun x hx => first ▸ hx) code
  · have ops : ∀ j ∈ n.block, j.isOp = true := by
      intro j hj
      rw [hblock] at hj cut
      obtain rfl | hj := mem_cons.mp hj
      · simp [Instr.isOp, ho]
      · exact cut.tail j hj
    exact sifted_ops sd cs hn (fun _ hj => hj) ops cut.ends (fun hopen => hopen) here rest

include cleared

/-- What is left of the blocks is what is left of the body. -/
theorem sifted_of_cleared : Sifted (entrySet g s) g.body s.blocks.flatten (s.inAt 0) := by
  -- Backward from the last block.
  have behind : ∀ m k, k + m = g.length → Sifted (entrySet g s) ((g.drop k).flatMap Node.block)
      (s.blocks.drop k).flatten (s.inAt k) := by
    intro m
    induction m with
    | zero =>
      intro k hk
      have := cs.blocks
      rw [drop_eq_nil_of_le (by omega), drop_eq_nil_of_le (by omega)]
      exact .nil
    | succ m ih =>
      intro k hk
      have hlt : k < g.length := by omega
      have hlt' : k < s.blocks.length := cs.blocks ▸ hlt
      have hn : g[k]? = some g[k] := getElem?_eq_getElem hlt
      have block : s.blockAt k = s.blocks[k] := by simp [State.blockAt, hlt']
      rw [drop_eq_getElem_cons hlt, drop_eq_getElem_cons hlt', flatMap_cons,
        flatten_cons, ← block]
      exact sifted_block sd cs hn (cleared k _ hn) (ih (k + 1) (by omega))
  simpa [FlowGraph.body] using behind g.length 0 (by omega)

end Sifted

section Graph

variable {g : FlowGraph} {is body : List Instr}

lemma body_ofBody (h : ofBody .looping is = .ok g) : g.body = trimmed true is :=
  body_of_split (blocks_ofBody rfl h)

lemma sound_of_split (items : ∀ i ∈ is, i.IsItem) {style : Style} (h : ofBody style is = .ok g)
    (blocks : g.blocks = Block.split body) (core : ∀ i ∈ body, i.Core)
    (distinct : (body.filterMap Instr.label).Nodup) : Sound g := by
  have whole := body_of_split blocks
  refine ⟨ofBody_charted items h, whole ▸ core, fun n hn => ?_,
    fun p q n m l => label_injective (whole ▸ distinct)⟩
  have mem : n.block ∈ g.blocks := mem_map_of_mem hn
  exact Block.wellCut_of_mem_split (blocks ▸ mem)

lemma sound_ofBody (core : ∀ i ∈ is, i.Core) (distinct : (is.filterMap Instr.label).Nodup)
    (h : ofBody .looping is = .ok g) : Sound g :=
  sound_of_split (fun i hi => (core i hi).isItem) h (blocks_ofBody rfl h)
    (fun i hi => core i (mem_of_mem_trimmed hi)) (distinct.sublist (trimmed_sublist.filterMap _))

end Graph

section Func

variable {f : Func} {first : Instr} {is : List Instr}

lemma labelledBody_of_instrs (hf : f.instrs = some (first :: is)) :
    f.labelledBody false = .ok (withLabel first is) := by
  unfold Func.labelledBody
  rw [Func.body, hf]
  rfl

/-- Functions from which operations can be removed whose results are not live: no call gives a value,
labels are distinct and there for every jump, and an exit can be reached from every block. -/
structure Prunable (f : Func) : Prop where
  silent : Silent (f.instrs.getD [])
  nonempty : f.instrs.getD [] ≠ []
  distinct : (newLabels (f.instrs.getD []) ++ (f.instrs.getD []).filterMap Instr.label).Nodup
  targets : ∀ i ∈ f.instrs.getD [], i.Branches →
    ∃ ls, i.labels = some ls ∧ ∀ l ∈ ls, ∃ j ∈ f.instrs.getD [], j.label = some l
  exits : ∀ g, f.labelledGraph .looping false = .ok g → ∀ k < g.length, g.ReachesExit k

/-- The body of a function that can be pruned, with its label, and the graph of that. -/
structure Charting (f : Func) (first : Instr) (is : List Instr) (g : FlowGraph) : Prop where
  instrs : f.instrs = some (first :: is)
  silent : Silent (withLabel first is)
  graph : f.labelledGraph .looping false = .ok g
  built : ofBody .looping (withLabel first is) = .ok g
  sound : Sound g

lemma Prunable.charting (pr : Prunable f) : ∃ first is g, Charting f first is g := by
  obtain ⟨first, is, hf⟩ := Func.exists_cons pr.nonempty
  obtain ⟨silent, -, distinct, targets, -⟩ := pr
  have hbody : f.instrs.getD [] = first :: is := by rw [hf]; rfl
  rw [hbody] at silent distinct targets
  have quiet : Silent (withLabel first is) := by
    refine ⟨fun i hi => ?_, fun i hi call => ?_⟩
    · obtain hi | rfl := mem_withLabel hi
      · exact silent.core i hi
      · exact .label "entry" rfl rfl rfl rfl
    · obtain hi | rfl := mem_withLabel hi
      · exact silent.calls i hi call
      · rfl
  obtain ⟨g, hg⟩ : ∃ g, ofBody .looping (withLabel first is) = .ok g := by
    refine ofBody_total rfl (fun i hi => (quiet.core i hi).isItem) fun i hi branches => ?_
    obtain hi | rfl := mem_withLabel hi
    · obtain ⟨ls, hls, -⟩ := targets i hi branches
      exact ⟨ls, hls⟩
    · simp [Instr.Branches, Instr.labelled] at branches
  rw [← filterMap_label_withLabel] at distinct
  exact ⟨first, is, g, hf, quiet, Outcome.ok_bind (labelledBody_of_instrs hf) hg, hg,
    sound_ofBody quiet.core distinct hg⟩

/-- The function without its unreachable operations, with its label, shows what the function shows. -/
lemma Prunable.observe_trimmed (pr : Prunable f) (hf : f.instrs = some (first :: is)) {V W : Type}
    (M : Meaning V W) (args : List V) (world : W) (n : Nat) :
    ∃ m, Machine.observe M (trimmed true (withLabel first is)) m
        ((f.withBody (trimmed true (withLabel first is))).start args world) =
      ((newLabels (f.instrs.getD [])).map .enter ++
          (Machine.observe M (f.instrs.getD []) n (f.start args world)).1,
        (Machine.observe M (f.instrs.getD []) n (f.start args world)).2) := by
  obtain ⟨silent, -, distinct, targets, -⟩ := pr
  have hbody : f.instrs.getD [] = first :: is := by rw [hf]; rfl
  have fresh : ∀ i ∈ first :: is, i.Branches → ∀ l ∈ i.labels.getD [],
      l ∉ newLabels (first :: is) := by
    intro i hi branches l hl hnew
    rw [hbody] at targets distinct
    obtain ⟨ls, hls, present⟩ := targets i hi branches
    obtain ⟨j, hj, hjl⟩ := present l (by simpa [hls] using hl)
    exact (nodup_append.mp distinct).2.2 l hnew l (mem_filterMap.mpr ⟨j, hj, hjl⟩) rfl
  rw [hbody] at silent
  have follows := follows_trimmed (M := M) (fun i hi => (silent.core i hi).isItem)
    (fun i hi => (silent.core i hi).not_phi) [] fresh (s := f.start args world) hbody
    (t := (f.withBody (trimmed true (withLabel first is))).start args world) rfl rfl rfl
  obtain ⟨m, -, e⟩ := follows.exact (fun _ => id) n
  rw [hbody]
  exact ⟨m, e⟩

/-- A function shows what it showed, behind the label that it may have got, when operations are removed
whose results are not live. -/
theorem pruneFunc_observe (pr : Prunable f) : ∃ f', pruneFunc .looping f = .ok f' ∧
    ∀ {V W : Type} (M : Meaning V W), M.Steady → ∀ (args : List V) (world : W) (n : Nat),
      (f.observe M args world n).2 ≠ .failed →
      ∃ m, f'.observe M args world m =
        ((newLabels (f.instrs.getD [])).map .enter ++ (f.observe M args world n).1,
          (f.observe M args world n).2) := by
  obtain ⟨first, is, g, ch⟩ := pr.charting
  obtain ⟨s, hs, cs, cleared⟩ := prune_total
    (into_iff_edge (fun i hi => (ch.silent.core i hi).isItem) ch.built) (pr.exits g ch.graph)
    fun i hi ho => ((ch.sound.core i hi).of_not_op (by simpa [Instr.isOp] using ho)).1
  refine ⟨f.withBody s.blocks.flatten, Outcome.bind_eq_ok.mpr
    ⟨g, ch.graph, Outcome.bind_eq_ok.mpr ⟨s, hs, rfl⟩⟩, fun M steady args world n run => ?_⟩
  have sifted := sifted_of_cleared ch.sound cs cleared
  rw [body_ofBody ch.built] at sifted
  have silent : Silent (trimmed true (withLabel first is)) :=
    ⟨fun i hi => ch.silent.core i (mem_of_mem_trimmed hi),
      fun i hi => ch.silent.calls i (mem_of_mem_trimmed hi)⟩
  have quiet : Unspeculative s.blocks.flatten := fun i hi =>
    silent.unspeculative i (sifted.sublist.subset hi)
  simp only [Func.observe_eq pr.silent.unspeculative,
    Func.observe_eq (f := f.withBody s.blocks.flatten) quiet] at run ⊢
  -- First the label in front and the unreachable operations, then those whose results are dead.
  obtain ⟨k, trim⟩ := pr.observe_trimmed ch.instrs M args world n
  obtain ⟨m, hm⟩ := sifted.observe silent steady
    (s := (f.withBody (trimmed true (withLabel first is))).start args world)
    (t := (f.withBody s.blocks.flatten).start args world) rfl rfl rfl rfl (n := k) (by rwa [trim])
  exact ⟨m, hm.trans trim⟩

/-- Counts its argument down to zero and prints it then; the square that it computes on the way is not
used. There may be more behind the branch, and the loop is closed in a given way. -/
def squaringWith (more : List Instr) (back : Instr) : Func where
  name := some "main"
  args := some [Sample.wholeParam "n"]
  instrs := some (
    [ Sample.whole "one" 1,
      Sample.whole "zero" 0,
      .labelled "loop",
      Sample.compute .bool "gt" "more" ["n", "zero"],
      Sample.branch "more" "body" "done" ] ++ more ++
    [ .labelled "body",
      Sample.compute .int "mul" "square" ["n", "n"],
      Sample.compute .int "sub" "n" ["n", "one"],
      back,
      .labelled "done",
      Sample.effect "print" ["n"] ])

def squaring : Func := squaringWith [] (.jump "loop")

/-- The edges and the exits of a graph that has been computed. -/
lemma succOf_of_map {o : Outcome FlowGraph} {s : List (List Nat)} (hg : o = .ok g)
    (h : o.toOption.map (List.map Node.succ) = some s) : g.length = s.length ∧
      (∀ p, succOf g p = s.getD p []) ∧ ∀ k, s[k]? = some [] → g.ReachesExit k := by
  subst hg
  obtain rfl : g.map Node.succ = s := by simpa [Except.toOption] using h
  refine ⟨by simp, fun p => by rw [succOf, getD_eq_getElem?_getD, getElem?_map], fun k hk => ?_⟩
  rw [getElem?_map] at hk
  obtain ⟨n, hn, none⟩ := Option.map_eq_some_iff.mp hk
  exact .exit hn none

lemma prunable_squaring : Prunable squaring where
  silent := ⟨by decide, by decide⟩
  nonempty := by simp [squaring, squaringWith]
  distinct := by decide
  targets := by simp [squaring, squaringWith, Instr.labelled, Instr.jump, Instr.Branches]
  exits g hg k hk := by
    obtain ⟨len, succ, exit⟩ := succOf_of_map (s := [[1], [2, 3], [1], []]) hg (by decide +kernel)
    have last := exit 3 rfl
    have loop : g.ReachesExit 1 := .step (edge_iff.mpr (by simp [succ])) last
    obtain rfl | rfl | rfl | rfl : k = 0 ∨ k = 1 ∨ k = 2 ∨ k = 3 := by simp at len; omega
    · exact .step (edge_iff.mpr (by simp [succ])) loop
    · exact loop
    · exact .step (edge_iff.mpr (by simp [succ])) loop
    · exact last

theorem pruneFunc_observe_squaring : ∃ f', pruneFunc .looping squaring = .ok f' ∧
    f'.instrs = some (.labelled "entry" ::
      (squaring.instrs.getD []).filter fun i => i.dest != some "square") ∧
    ∃ m, f'.observe .words [.int 1] () m =
      ([.enter "entry", .enter "loop", .enter "body", .enter "loop", .enter "done",
        .print [.int 0]], .returned none ()) := by
  obtain ⟨f', h, same⟩ := pruneFunc_observe prunable_squaring
  refine ⟨f', h, ?_, ?_⟩
  · have left : (pruneFunc .looping squaring).toOption.bind Func.instrs =
        some (.labelled "entry" ::
          (squaring.instrs.getD []).filter fun i => i.dest != some "square") := by
      decide +kernel
    simpa only [h, Except.toOption, Option.bind_some] using left
  · have run := same .words Meaning.steady_word [.int 1] () 20 (by decide +kernel)
    have shown : squaring.observe .words [.int 1] () 20 =
        ([.enter "loop", .enter "body", .enter "loop", .enter "done", .print [.int 0]],
          .returned none ()) := by
      decide +kernel
    rwa [shown] at run

def endless : Func where
  name := some "main"
  instrs := some [
    .labelled "top",
    .jump "set",
    .labelled "show",
    Sample.effect "print" ["x"],
    .jump "set",
    .labelled "set",
    Sample.whole "x" 1,
    .jump "show"]

/-- A loop without an exit loses an operation whose result it uses. -/
theorem pruneFunc_endless : ∃ f', pruneFunc .looping endless = .ok f' ∧
    endless.observe .words [] () 7 =
      ([.enter "top", .enter "set", .enter "show", .print [.int 1]], .running) ∧
    f'.observe .words [] () 6 =
      ([.enter "top", .enter "set", .enter "show"], .failed) := by
  refine ⟨endless.withBody ((endless.instrs.getD []).filter fun i => i.dest.isNone), ?_, ?_, ?_⟩
  · decide +kernel
  · decide +kernel
  · decide +kernel

end Func

end Liveness

end BrilKit
