import BrilKit.Proofs.Block.Ahead
import BrilKit.Proofs.Liveness.Prune

/-!
# Exact sets from the exits

If an exit can be reached from every block, visits that begin at the exits come to every block, and
the sets at the starts of the blocks are exact: they hold the variables that some path reads before
it assigns them.
-/

namespace BrilKit

open List Outcome

namespace Liveness

open FlowGraph DeadCode

variable {g : FlowGraph} {s s' : State} {k : Nat} {x : String} {b c : Block}
  {out live : List String}

lemma mem_blockStart :
    x ∈ blockStart b out ↔ b.ReadsFirst x ∨ ¬ b.Defines x ∧ x ∈ out := by
  induction b with
  | nil => simp [blockStart]
  | cons i b ih =>
    rw [blockStart_cons, mem_before, Block.readsFirst_cons, Block.defines_cons]
    tauto

/-- Some path from the start of a block of a graph reads a variable before any assignment to it. -/
def Ahead (g : FlowGraph) (x : String) (k : Nat) : Prop :=
  ReadAhead (fun k => g[k]?.map Node.block) g.Edge x k

lemma Ahead.of_blockStart {n : Node} (hn : g[k]? = some n)
    (behind : ∀ y ∈ out, ∃ q, Edge g k q ∧ Ahead g y q) (h : x ∈ blockStart n.block out) :
    Ahead g x k := by
  obtain first | ⟨kept, hx⟩ := mem_blockStart.mp h
  · exact .here (by simp [hn]) first
  · obtain ⟨q, e, later⟩ := behind x hx
    exact .later (by simp [hn]) kept e later

lemma Growing.ahead (edges : ∀ {p q}, Into g p q ↔ Edge g p q) (gr : Growing g s)
    (cs : Consistent g s) (sound : ∀ k x, x ∈ s.inAt k → Ahead g x k)
    (hk : s.pending.head? = some k) (v : Visited g s k (s.result k).1 (s.result k).2 s') :
    ∀ q x, x ∈ s'.inAt q → Ahead g x q := by
  have hlt := cs.head_lt hk
  intro q x hx
  by_cases e : q = k
  · subst e
    have block : s.blockAt q = g[q].block := by
      simp [State.blockAt, gr.blocks, FlowGraph.blocks, hlt]
    rw [v.mem_inAt cs hlt, gr.result, block] at hx
    refine .of_blockStart (getElem?_eq_getElem hlt) (fun y hy => ?_) hx
    obtain ⟨r, hr, hy⟩ := cs.mem_outAt.mp hy
    exact ⟨r, edges.mp hr, sound r y hy⟩
  · rw [v.inAt_other e] at hx
    exact sound q x hx

lemma compute_ahead (edges : ∀ {p q}, Into g p q ↔ Edge g p q) (hs : compute g = .ok s)
    (hx : x ∈ s.inAt k) : Ahead g x k := by
  obtain ⟨⟨-, -, sound⟩, -⟩ := Iterate.run_invariant
    (fun s => Consistent g s ∧ Growing g s ∧ ∀ k x, x ∈ s.inAt k → Ahead g x k)
    (fun u t inv more ht => by
      obtain ⟨cs, gr, sound⟩ := inv
      obtain ⟨q, hq⟩ := exists_head more
      obtain ⟨t', ht', cs', v⟩ := visit_visited cs edges.mp hq
      obtain rfl := Except.ok.inj (ht.symm.trans ht')
      exact ⟨cs', gr.visited cs cs' hq v, gr.ahead edges cs sound hq v⟩) hs
    ⟨consistent_initial, growing_initial, fun k x hx => by simp [inAt_initial] at hx⟩
  exact sound k x hx

lemma Ahead.mem_inAt (edges : ∀ {p q}, Into g p q ↔ Edge g p q) (cs : Consistent g s)
    (blocks : s.blocks = g.blocks)
    (stable : ∀ k < g.length, blockStart (s.blockAt k) (s.outAt k) ⊆ s.inAt k)
    (h : Ahead g x k) : x ∈ s.inAt k := by
  have into : ∀ {k b}, g[k]?.map Node.block = some b →
      b.ReadsFirst x ∨ ¬ b.Defines x ∧ x ∈ s.outAt k → x ∈ s.inAt k := by
    intro k b hb h
    obtain ⟨n, hn, rfl⟩ := Option.map_eq_some_iff.mp hb
    apply stable k (lt_of_getElem? hn)
    have block : s.blockAt k = n.block := by simp [State.blockAt, blocks, FlowGraph.blocks, hn]
    rw [block]
    exact mem_blockStart.mpr h
  induction h with
  | here hb first => exact into hb (.inl first)
  | later hb kept e _ ih => exact into hb (.inr ⟨kept, cs.mem_outAt.mpr ⟨_, edges.mpr e, ih⟩⟩)

lemma Cleared.pruneRepeatedly {n : Nat} (h : Cleared out b c live) :
    Cleared out b (pruneRepeatedly n out c) live := by
  induction n generalizing c with
  | zero => exact h
  | succ n ih =>
    have next : Cleared out b (pruneBlock c out).1 live :=
      h.pruned.1.mono (fun _ hx => hx) h.pruned.2
    show Cleared out b (if (pruneBlock c out).1.length = c.length then (pruneBlock c out).1
      else Liveness.pruneRepeatedly n out (pruneBlock c out).1) live
    split
    · exact next
    · exact ih next

def swept (s : State) : List Block :=
  s.blocks.mapIdx fun k b => pruneRepeatedly (b.length + 1) (s.outAt k) b

lemma pruneBody_eq {is : List Instr} (h : ofBody .full is = .ok g) (hs : compute g = .ok s)
    (cs : Consistent g s) : pruneBody is = .ok (swept s).flatten := by
  have each : s.blocks.zipIdx.mapM (fun e => do
      return pruneRepeatedly (e.1.length + 1) (← s.liveOut e.2) e.1) = .ok (swept s) := by
    rw [mapM_eq_ok, swept, mapIdx_eq_zipIdx_map, forall₂_map_right_iff,
      forall₂_same]
    intro e he
    have hk : e.2 < s.outs.length := by
      have len : s.outs.length = g.length := by simpa using congrArg List.length cs.outs
      have lt := (mem_zipIdx_iff_getElem?.mp he)
      rw [len, ← cs.blocks]
      exact lt_of_getElem? lt
    have live : s.liveOut e.2 = .ok (s.outAt e.2) := by
      have item : itemAt s.outs e.2 = .ok (s.outs.getD e.2 []) := by
        rw [itemAt_eq_ok]
        simp [hk]
      exact ok_bind item rfl
    exact ok_bind live rfl
  refine ok_bind h (ok_bind hs ?_)
  exact ok_bind each rfl

lemma sifted_swept (sd : Sound g) (cs : Consistent g s) (blocks : s.blocks = g.blocks)
    (stable : ∀ k < g.length, blockStart (s.blockAt k) (s.outAt k) ⊆ s.inAt k) :
    Sifted (entrySet g s) g.body (swept s).flatten (s.inAt 0) := by
  have len : (swept s).length = g.length := by rw [swept, length_mapIdx, cs.blocks]
  have cs' : Consistent g { s with blocks := swept s } :=
    ⟨len, cs.ins, cs.outs, cs.touched, cs.pending, cs.nodup, cs.linked⟩
  refine sifted_of_cleared sd cs' fun k n hn => ?_
  have hk : k < g.length := lt_of_getElem? hn
  have item : s.blocks[k]? = some n.block := by simp [blocks, FlowGraph.blocks, hn]
  have block : State.blockAt { s with blocks := swept s } k =
      pruneRepeatedly (n.block.length + 1) (s.outAt k) n.block := by
    simp [State.blockAt, swept, item]
  have whole : Cleared (s.outAt k) n.block n.block (blockStart n.block (s.outAt k)) := by
    refine .refl fun i hi label => ?_
    have core := sd.core i (mem_flatMap.mpr ⟨n, mem_of_getElem? hn, hi⟩)
    exact (core.of_not_op (by simpa [Instr.isOp] using label)).1
  have start : blockStart n.block (s.outAt k) ⊆ s.inAt k := by
    simpa [State.blockAt, item] using stable k hk
  rw [block]
  exact (whole.mono (fun _ hx => hx) start).pruneRepeatedly

section Func

variable {f : Func} {is : List Instr}

/-- The sets at the starts of the blocks are exact, and a function from which operations are removed
by these sets shows what it showed as long as that has not failed. -/
theorem pruneBody_observe (hf : f.instrs = some is) (core : ∀ i ∈ is, i.Core)
    (distinct : (is.filterMap Instr.label).Nodup) (h : ofBody .full is = .ok g)
    (exits : ∀ k < g.length, g.ReachesExit k) :
    ∃ s js, compute g = .ok s ∧
      (∀ (k : Nat) n, g[k]? = some n →
        ∃ live, s.ins[k]? = some live ∧ ∀ x, x ∈ live ↔ Ahead g x k) ∧
      pruneBody is = .ok js ∧ js.Sublist is ∧
      ((∀ i ∈ is, i.op = some "call" → i.dest = none) →
        ∀ {V W : Type} (M : Meaning V W), M.Steady → ∀ (args : List V) (world : W) (n : Nat),
          (f.observe M args world n).2 ≠ .failed →
          ∃ m, (f.withBody js).observe M args world m = f.observe M args world n) := by
  have items : ∀ i ∈ is, i.IsItem := fun i hi => (core i hi).isItem
  have split := blocks_ofBody_whole rfl h
  have edges : ∀ {p q}, Into g p q ↔ Edge g p q := into_iff_edge items h
  obtain ⟨s, hs, cs, blocks, -, stable⟩ := compute_total edges exits
  have sifted := sifted_swept (sound_of_split items h split core distinct) cs blocks stable
  rw [body_of_split split] at sifted
  refine ⟨s, (swept s).flatten, hs, fun k n hn => ?_, pruneBody_eq h hs cs, sifted.sublist,
    fun calls V W M steady args world n run => ?_⟩
  · have hk : k < s.ins.length := cs.ins ▸ (List.getElem?_eq_some_iff.mp hn).1
    have live : s.ins[k]? = some (s.inAt k) := by simp [State.inAt, hk]
    exact ⟨_, live, fun x => ⟨compute_ahead edges hs, Ahead.mem_inAt edges cs blocks stable⟩⟩
  · have silent : Silent is := ⟨core, calls⟩
    have hbody : f.instrs.getD [] = is := by rw [hf, Option.getD_some]
    have quiet : Unspeculative (swept s).flatten := fun i hi =>
      silent.unspeculative i (sifted.sublist.subset hi)
    simp only [Func.observe_eq (hbody ▸ silent.unspeculative),
      Func.observe_eq (f := f.withBody (swept s).flatten) quiet, hbody] at run ⊢
    exact sifted.observe silent steady (s := f.start args world) hbody
      (t := (f.withBody (swept s).flatten).start args world) rfl rfl rfl run

/-- Computes a sum that is not used either where control does not come, and has both edges from the
end of the loop lead back to its start. -/
def winding : Func :=
  squaringWith [Sample.compute .int "add" "sum" ["n", "n"]] (Sample.branch "more" "loop" "loop")

lemma exits_winding (h : ofBody .full (winding.instrs.getD []) = .ok g) :
    ∀ k < g.length, g.ReachesExit k := by
  obtain ⟨len, succ, exit⟩ := succOf_of_map (s := [[1], [3, 4], [3], [1, 1], []]) h
    (by decide +kernel)
  have last := exit 4 rfl
  have loop : g.ReachesExit 1 := .step (edge_iff.mpr (by simp [succ])) last
  have body : g.ReachesExit 3 := .step (edge_iff.mpr (by simp [succ])) loop
  intro k hk
  obtain rfl | rfl | rfl | rfl | rfl : k = 0 ∨ k = 1 ∨ k = 2 ∨ k = 3 ∨ k = 4 := by
    simp at len
    omega
  · exact .step (edge_iff.mpr (by simp [succ])) loop
  · exact loop
  · exact .step (edge_iff.mpr (by simp [succ])) body
  · exact body
  · exact last

theorem pruneBody_observe_winding : ∃ js, pruneBody (winding.instrs.getD []) = .ok js ∧
    js = (winding.instrs.getD []).filter (fun i => i.dest != some "square" && i.dest != some "sum") ∧
    ∃ m, (winding.withBody js).observe .words [.int 1] () m =
      ([.enter "loop", .enter "body", .enter "loop", .enter "done", .print [.int 0]],
        .returned none ()) := by
  obtain ⟨g, h⟩ : ∃ g, ofBody .full (winding.instrs.getD []) = .ok g :=
    Outcome.exists_of_isOk (by decide +kernel)
  have body : winding.instrs = some (winding.instrs.getD []) := rfl
  obtain ⟨s, js, -, -, hjs, -, same⟩ := pruneBody_observe body (by decide) (by decide) h
    (exits_winding h)
  refine ⟨js, hjs, ?_, ?_⟩
  · have left : (pruneBody (winding.instrs.getD [])).toOption = some ((winding.instrs.getD []).filter
        fun i => i.dest != some "square" && i.dest != some "sum") := by
      decide +kernel
    rw [hjs] at left
    exact Option.some.inj left
  · have run := same (by simp [winding, squaringWith, Instr.labelled]) .words
      Meaning.steady_word [.int 1] () 20 (by decide +kernel)
    have shown : winding.observe .words [.int 1] () 20 =
        ([.enter "loop", .enter "body", .enter "loop", .enter "done", .print [.int 0]],
          .returned none ()) := by
      decide +kernel
    rwa [shown] at run

end Func

end Liveness

end BrilKit
