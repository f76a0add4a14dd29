import BrilKit.DataFlow.Facts
import BrilKit.Proofs.DataFlow.Solver
import BrilKit.Proofs.Liveness.Settle

/-!
# Live and assigned variables

Two analyses gather names: a block adds some and lets some pass. A variable is live where some path
comes to a read of it before an assignment, and may have been assigned where some path comes from a
block that assigns it.
-/

namespace BrilKit

open List Table

namespace Block

variable {b : Block} {x : String} {r : Reads}

lemma mem_written : x ∈ b.written ↔ b.Defines x := by simp [written, Members.ofList, Defines]

lemma foldl_take :
    x ∈ (b.foldl Reads.take r).found ↔ x ∈ r.found ∨ x ∉ r.assigned ∧ b.ReadsFirst x := by
  induction b generalizing r with
  | nil => simp
  | cons i b ih =>
    have found : x ∈ (r.take i).found ↔ x ∈ r.found ∨ x ∈ i.uses ∧ x ∉ r.assigned := by
      simp [Reads.take, Members.without]
    have assigned : x ∈ (r.take i).assigned ↔ x ∈ r.assigned ∨ i.dest = some x := by
      unfold Reads.take
      cases i.dest with
      | none => simp
      | some d => simp [eq_comm]
    rw [foldl_cons, ih, readsFirst_cons]
    tauto

lemma mem_readFirst : x ∈ b.readFirst ↔ b.ReadsFirst x := by
  rw [readFirst, foldl_take]
  simp

lemma ReadsFirst.exists_uses (h : b.ReadsFirst x) : ∃ i ∈ b, x ∈ i.uses := by
  obtain ⟨done, i, todo, rfl, hx, -⟩ := h
  exact ⟨i, by simp, hx⟩

end Block

namespace Analysis

variable {a : Analysis (List String)} {adds passes : Block → String → Prop}
variable {blocks : NamedBlocks} {sources targets : FlowMap} {At : String → String → Prop}
variable {facts : String → List String} {n m x : String}

/-- An analysis whose facts are sets of names: each block adds some and lets some pass. -/
structure Gathers (a : Analysis (List String)) (adds passes : Block → String → Prop) : Prop where
  init : a.init = []
  merge : a.merge = Members.unionAll
  same : a.same = Members.same
  transfer : ∀ b s, ∃ s', a.transfer b s = .ok s' ∧ ∀ x, x ∈ s' ↔ adds b x ∨ passes b x ∧ x ∈ s
  named : ∀ b x, adds b x → ∃ i ∈ b, i.dest = some x ∨ x ∈ i.uses

/-- A block adds a name, or lets it pass from one of its sources. -/
def Gets (blocks : NamedBlocks) (sources : FlowMap) (adds passes : Block → String → Prop)
    (At : String → String → Prop) (n x : String) : Prop :=
  ∃ b, blocks.get? n = some b ∧ (adds b x ∨ passes b x ∧ ∃ p ∈ sources.getD n [], At p x)

variable (sources facts) in
lemma Gathers.exists_computes (ga : a.Gathers adds passes) (hn : n ∈ blocks.keys) :
    ∃ s, a.Computes blocks sources facts n s ∧
      ∀ x, x ∈ s ↔ Gets blocks sources adds passes (fun p x => x ∈ facts p) n x := by
  obtain ⟨b, hb⟩ := mem_keys.mp hn
  obtain ⟨s, hs, mem⟩ := ga.transfer b (a.merged sources facts n)
  refine ⟨s, ⟨b, hb, hs⟩, fun x => ?_⟩
  have mem_merged : x ∈ a.merged sources facts n ↔ ∃ p ∈ sources.getD n [], x ∈ facts p := by
    simp [merged, ga.merge]
  rw [mem, mem_merged]
  constructor
  · exact fun h => ⟨b, hb, h⟩
  · rintro ⟨c, hc, h⟩
    obtain rfl := Option.mem_unique hb hc
    exact h

lemma Gathers.mem_of_computes {s : List String} (ga : a.Gathers adds passes)
    (h : a.Computes blocks sources facts n s) :
    x ∈ s ↔ Gets blocks sources adds passes (fun p x => x ∈ facts p) n x := by
  obtain ⟨b, hb, -⟩ := id h
  obtain ⟨s', hs', mem⟩ := ga.exists_computes sources facts
    (mem_keys.mpr ⟨b, hb⟩)
  rw [h.unique hs', mem]

/-- Sets of names only grow, and only names in the blocks come in. -/
lemma Gathers.ascends (ga : a.Gathers adds passes)
    (closed : ∀ n x, Gets blocks sources adds passes At n x → At n x) :
    Ascends a blocks sources (fun n s => ∀ x ∈ s, At n x ∧ x ∈ namesIn blocks) (· ⊆ ·)
      (fun s => s.toFinset.card) (namesIn blocks).length where
  refl _ _ hx := hx
  trans _ _ _ h h' _ hx := h' (h hx)
  init n _ x hx := by simp [ga.init] at hx
  least s x hx := by simp [ga.init] at hx
  computes n hn facts meets := by
    obtain ⟨s, hs, mem⟩ := ga.exists_computes sources facts hn
    refine ⟨s, hs, fun x hx => ?_⟩
    obtain ⟨b, hb, ha | ⟨hpass, p, hp, hx⟩⟩ := (mem x).mp hx
    · refine ⟨closed n x ⟨b, hb, .inl ha⟩, mem_namesIn.mpr ⟨b, ?_, ga.named b x ha⟩⟩
      exact mem_map_of_mem (mem_of_get? hb)
    · obtain ⟨hat, hname⟩ := meets p hp x hx
      exact ⟨closed n x ⟨b, hb, .inr ⟨hpass, p, hp, hat⟩⟩, hname⟩
  mono n facts facts' s s' le hs hs' x hx := by
    rw [ga.mem_of_computes hs] at hx
    rw [ga.mem_of_computes hs']
    obtain ⟨b, hb, ha | ⟨hpass, p, hp, hx⟩⟩ := hx
    · exact ⟨b, hb, .inl ha⟩
    · exact ⟨b, hb, .inr ⟨hpass, p, hp, (le p hp).2.2 hx⟩⟩
  same n s _ := by
    rw [ga.same, Members.same_iff]
    exact fun _ => Iff.rfl
  rises n s s' _ _ sub changed := by
    apply Liveness.card_lt_of_not_same sub
    rw [← changed, ga.same, Bool.eq_iff_iff, Members.same_iff, Members.same_iff]
    exact forall_congr' fun x => iff_comm
  bounded n s meets := by
    refine (Finset.card_le_card fun x hx => ?_).trans (toFinset_card_le (namesIn blocks))
    rw [mem_toFinset] at hx ⊢
    exact (meets x hx).2

/-- The sets found are the least ones, before and behind every block. -/
lemma Gathers.exact {before behind : Table String (List String)} (ga : a.Gathers adds passes)
    (least : ∀ P : String → String → Prop, (∀ n x, Gets blocks sources adds passes P n x → P n x) →
      ∀ n x, At n x → P n x)
    (w : Wires blocks sources targets)
    (sol : Solution a blocks sources (fun n s => ∀ x ∈ s, At n x ∧ x ∈ namesIn blocks) before behind)
    (hn : n ∈ blocks.keys) :
    (∃ s, before.get? n = some s ∧ ∀ x, x ∈ s ↔ ∃ p ∈ sources.getD n [], At p x) ∧
      ∃ s, behind.get? n = some s ∧ ∀ x, x ∈ s ↔ At n x := by
  have complete : ∀ n x, At n x → x ∈ behind.getD n a.init := by
    apply least
    intro n x h
    obtain ⟨b, hb, -⟩ := id h
    obtain ⟨s, hs, -, g, hg, same⟩ := sol.behind n (mem_keys.mpr ⟨b, hb⟩)
    rw [Table.getD, hs, Option.getD_some]
    rw [ga.same, Members.same_iff] at same
    exact (same x).mp ((ga.mem_of_computes hg).mpr h)
  have exact_ : ∀ p ∈ blocks.keys, ∀ x, x ∈ behind.getD p a.init ↔ At p x := by
    intro p hp x
    obtain ⟨s, hs, meets, -⟩ := sol.behind p hp
    refine ⟨fun hx => ?_, complete p x⟩
    rw [Table.getD, hs, Option.getD_some] at hx
    exact (meets x hx).1
  refine ⟨⟨_, sol.before n hn, fun x => ?_⟩, ?_⟩
  · rw [merged, ga.merge, Members.mem_unionAll]
    simp only [mem_map, exists_exists_and_eq_and]
    exact exists_congr fun p => and_congr_right fun hp => exact_ p (w.mem_keys hp) x
  · obtain ⟨s, hs, -⟩ := sol.behind n hn
    refine ⟨s, hs, fun x => ?_⟩
    rw [← exact_ n hn x, Table.getD, hs, Option.getD_some]

lemma gathers_live : Gathers live Block.ReadsFirst fun b x => ¬ b.Defines x where
  init := rfl
  merge := rfl
  same := rfl
  transfer b s := by
    refine ⟨_, rfl, fun x => ?_⟩
    rw [Members.mem_addAll, Block.mem_readFirst, Members.without]
    simp [Block.mem_written, and_comm]
  named b x h := by
    obtain ⟨i, hi, hx⟩ := h.exists_uses
    exact ⟨i, hi, .inr hx⟩

lemma gathers_defined : Gathers defined Block.Defines fun _ _ => True where
  init := rfl
  merge := rfl
  same := rfl
  transfer b s := by
    refine ⟨_, rfl, fun x => ?_⟩
    rw [Members.mem_addAll, Block.mem_written]
    tauto
  named b x h := by
    obtain ⟨i, hi, hx⟩ := h
    exact ⟨i, hi, .inl hx⟩

end Analysis

namespace NamedBlocks

/-- A path, maybe of no edge, leads to a block from one that assigns a variable. -/
def AssignedWithin (t : NamedBlocks) (x n : String) : Prop :=
  ∃ m b, t.get? m = some b ∧ b.Defines x ∧ Relation.ReflTransGen t.PassesTo m n

lemma assignedBefore_iff {t : NamedBlocks} {x n : String} :
    t.AssignedBefore x n ↔ ∃ p, t.PassesTo p n ∧ t.AssignedWithin x p := by
  constructor
  · rintro ⟨m, b, hb, hd, path⟩
    obtain ⟨p, path, e⟩ := Relation.TransGen.tail'_iff.mp path
    exact ⟨p, e, m, b, hb, hd, path⟩
  · rintro ⟨p, e, m, b, hb, hd, path⟩
    exact ⟨m, b, hb, hd, Relation.TransGen.tail'_iff.mpr ⟨p, path, e⟩⟩

end NamedBlocks

namespace Analysis

variable {blocks : NamedBlocks} {preds succs : FlowMap}

lemma exists_solve_live (nonempty : blocks.entries ≠ []) (edges : blocks.edges = .ok (preds, succs))
    (w : Wires blocks succs preds) (mem_succs : ∀ n m, m ∈ succs.getD n [] ↔ blocks.PassesTo n m) :
    ∃ start finish, live.solve blocks = .ok (start, finish) ∧ ∀ n ∈ blocks.keys,
      ∃ names, start.get? n = some names ∧
        ∀ x, x ∈ names ↔ ReadAhead blocks.get? blocks.PassesTo x n := by
  have closed : ∀ n x, Gets blocks succs Block.ReadsFirst (fun b x => ¬ b.Defines x)
      (fun n x => ReadAhead blocks.get? blocks.PassesTo x n) n x →
      ReadAhead blocks.get? blocks.PassesTo x n := by
    rintro n x ⟨b, hb, hr | ⟨hd, m, hm, h⟩⟩
    · exact .here hb hr
    · exact .later hb hd ((mem_succs n m).mp hm) h
  obtain ⟨before, behind, run, sol⟩ := exists_solve (a := live) nonempty edges w
    (gathers_live.ascends closed) (by omega)
  refine ⟨behind, before, run, fun n hn => (gathers_live.exact ?_ w sol hn).2⟩
  intro P hP n x h
  induction h with
  | here hb hr => exact hP _ x ⟨_, hb, .inl hr⟩
  | later hb hd e _ ih => exact hP _ x ⟨_, hb, .inr ⟨hd, _, (mem_succs _ _).mpr e, ih⟩⟩

lemma exists_solve_defined (nonempty : blocks.entries ≠ []) (ht : blocks.Targeted)
    (edges : blocks.edges = .ok (preds, succs)) (w : Wires blocks preds succs)
    (mem_preds : ∀ n m, n ∈ preds.getD m [] ↔ blocks.PassesTo n m) :
    ∃ start finish, defined.solve blocks = .ok (start, finish) ∧ ∀ n ∈ blocks.keys,
      ∃ names, start.get? n = some names ∧ ∀ x, x ∈ names ↔ blocks.AssignedBefore x n := by
  have closed : ∀ n x, Gets blocks preds Block.Defines (fun _ _ => True)
      (fun n x => blocks.AssignedWithin x n) n x → blocks.AssignedWithin x n := by
    rintro n x ⟨b, hb, hd | ⟨-, p, hp, m, c, hc, hd, path⟩⟩
    · exact ⟨n, b, hb, hd, .refl⟩
    · exact ⟨m, c, hc, hd, path.tail ((mem_preds p n).mp hp)⟩
  obtain ⟨before, behind, run, sol⟩ := exists_solve (a := defined) nonempty edges w
    (gathers_defined.ascends closed) (by omega)
  have least : ∀ P : String → String → Prop,
      (∀ n x, Gets blocks preds Block.Defines (fun _ _ => True) P n x → P n x) →
      ∀ n x, blocks.AssignedWithin x n → P n x := by
    rintro P hP n x ⟨m, b, hb, hd, path⟩
    induction path with
    | refl => exact hP m x ⟨b, hb, .inl hd⟩
    | @tail p n _ e ih =>
      obtain ⟨c, ls, hc, hls, hn⟩ := id e
      obtain ⟨ls', hls', mem⟩ := ht p c hc
      obtain rfl := Except.ok.inj (hls.symm.trans hls')
      obtain ⟨d, hd⟩ := mem_keys.mp (mem n hn)
      exact hP n x ⟨d, hd, .inr ⟨trivial, p, (mem_preds p n).mpr e, ih⟩⟩
  refine ⟨before, behind, run, fun n hn => ?_⟩
  obtain ⟨names, hnames, mem⟩ := (gathers_defined.exact least w sol hn).1
  refine ⟨names, hnames, fun x => ?_⟩
  rw [mem, NamedBlocks.assignedBefore_iff]
  exact exists_congr fun p => and_congr_left fun _ => mem_preds p n

/-- Both analyses come to an end. Live at the start of a block is what some path from there reads
before it assigns it; assigned at the start of a block is what a block on a path to it assigns. -/
theorem solve_live_defined (nd : blocks.keys.Nodup) (nonempty : blocks.entries ≠ [])
    (ht : blocks.Targeted) :
    (∃ start finish, live.solve blocks = .ok (start, finish) ∧ ∀ n ∈ blocks.keys,
      ∃ names, start.get? n = some names ∧
        ∀ x, x ∈ names ↔ ReadAhead blocks.get? blocks.PassesTo x n) ∧
    ∃ start finish, defined.solve blocks = .ok (start, finish) ∧ ∀ n ∈ blocks.keys,
      ∃ names, start.get? n = some names ∧ ∀ x, x ∈ names ↔ blocks.AssignedBefore x n := by
  obtain ⟨preds, succs, edges, predKeys, succKeys, mem_preds, mem_succs⟩ :=
    NamedBlocks.exists_edges nd ht
  constructor
  · apply exists_solve_live nonempty edges _ mem_succs
    exact ⟨nd, succKeys, predKeys, fun p n => (mem_succs n p).trans (mem_preds n p).symm⟩
  · apply exists_solve_defined nonempty ht edges _ mem_preds
    exact ⟨nd, predKeys, succKeys, fun p n => (mem_preds p n).trans (mem_succs p n).symm⟩

def summing : NamedBlocks := ⟨[
  ("top", [
    Sample.whole "step" 1,
    .jump "loop"]),
  ("loop", [
    Sample.compute .int "add" "sum" ["sum", "step"],
    Sample.branch "more" "loop" "done"]),
  ("done", [
    Sample.effect "print" ["sum"],
    Sample.plain "ret"])]⟩

lemma targeted_summing : summing.Targeted := by
  intro n b h
  have mem := mem_of_get? h
  simp only [summing, mem_cons, not_mem_nil, or_false] at mem
  obtain ⟨rfl, rfl⟩ | ⟨rfl, rfl⟩ | ⟨rfl, rfl⟩ := mem
  · exact ⟨_, rfl, by decide⟩
  · exact ⟨_, rfl, by decide⟩
  · exact ⟨_, rfl, by decide⟩

theorem solve_live_defined_summing :
    summing.keys.Nodup ∧ summing.entries ≠ [] ∧ summing.Targeted ∧
    (∃ start finish names, live.solve summing = .ok (start, finish) ∧
      start.get? "top" = some names ∧ "sum" ∈ names) ∧
    ∃ start finish names, defined.solve summing = .ok (start, finish) ∧
      start.get? "loop" = some names ∧ "sum" ∈ names := by
  have nd : summing.keys.Nodup := by decide
  have nonempty : summing.entries ≠ [] := by simp [summing]
  obtain ⟨⟨start, finish, run, exact_⟩, start', finish', run', exact'⟩ :=
    solve_live_defined nd nonempty targeted_summing
  refine ⟨nd, nonempty, targeted_summing, ?_, ?_⟩
  · obtain ⟨names, hnames, mem⟩ := exact_ "top" (by decide)
    refine ⟨start, finish, names, run, hnames, (mem "sum").mpr ?_⟩
    have loop : ReadAhead summing.get? summing.PassesTo "sum" "loop" :=
      .here rfl (Block.readsFirst_cons.mpr (.inl (by decide)))
    exact .later rfl (by simp [Instr.jump]) ⟨_, _, rfl, rfl, by decide⟩ loop
  · obtain ⟨names, hnames, mem⟩ := exact' "loop" (by decide)
    refine ⟨start', finish', names, run', hnames, (mem "sum").mpr ?_⟩
    exact ⟨"loop", _, rfl, by simp, .single ⟨_, _, rfl, rfl, by decide⟩⟩

end Analysis

end BrilKit
