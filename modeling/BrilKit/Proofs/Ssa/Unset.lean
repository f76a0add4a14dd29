import BrilKit.Proofs.Dominance.Tree
import BrilKit.Proofs.Ssa.Conversion
import Mathlib

/-!
# Variables without a value

The walk down the dominator tree fails where an instruction reads a variable that has no version. It
has one exactly if some path leads to the place from an assignment. Each step is told by a lemma
`_failsIff`, up to `rename_failsIff`; `Terrain.arrives_iff` turns walks of the tree into paths.
-/

namespace BrilKit

open List Outcome Table

namespace NamedBlocks

/-- Some block reads a variable that is no parameter and that no assignment gets to. -/
def ReadsUnset (t : NamedBlocks) (params : List String) : Prop :=
  ∃ n b x, t.get? n = some b ∧ b.ReadsFirst x ∧ x ∉ params ∧ ¬ t.AssignedBefore x n

end NamedBlocks

namespace Ssa

open Renaming Dominators
open Outcome (FailsIff)

def Held (versions : Table String (List String)) (x : String) : Prop := versions.getD x [] ≠ []

section Instrs

variable {s s' : Renaming} {i : Instr} {b : Block}

lemma current_failsIff (x : String) : (s.current x).FailsIff .outOfRange (¬ Held s.versions x) := by
  unfold current itemAt Held
  cases s.versions.getD x [] with
  | nil => exact ⟨fun _ => rfl, by simp⟩
  | cons n ns => exact ⟨by simp, fun _ => ⟨n, rfl⟩⟩

lemma instr_failsIff : (s.instr i).FailsIff .outOfRange (∃ x ∈ i.uses, ¬ Held s.versions x) := by
  have args : (i.args.mapM fun xs : List String => xs.mapM s.current).FailsIff .outOfRange
      (∃ x ∈ i.uses, ¬ Held s.versions x) := by
    unfold Instr.uses
    cases i.args with
    | none => exact (FailsIff.of_ok rfl).congr (by simp)
    | some xs =>
      have all : (xs.mapM s.current).FailsIff .outOfRange (∃ x ∈ xs, ¬ Held s.versions x) :=
        FailsIff.mapM fun x _ => current_failsIff x
      exact (all.bind fun ns _ _ => FailsIff.of_ok rfl).congr (by simp)
  refine (args.bind (Q := False) fun ns _ _ => ?_).congr (by simp)
  cases i.dest with
  | none => exact .of_ok rfl
  | some d => exact .of_ok rfl

lemma held_push {v x : String} : Held (s.push v).2.versions x ↔ Held s.versions x ∨ v = x := by
  unfold Held
  by_cases h : x = v
  · subst h
    simp [push_versions_same]
  · simp [push_versions_other h, Ne.symm h]

lemma held_instr {i' : Instr} (h : s.instr i = .ok (i', s')) (x : String) :
    Held s'.versions x ↔ Held s.versions x ∨ i.dest = some x := by
  obtain ⟨_, _, ⟨hd, _, rfl⟩ | ⟨d, hd, _, rfl⟩⟩ := instr_cases h
  · simp [hd]
  · rw [held_push, hd, Option.some.injEq]

lemma instrs_failsIff :
    (s.instrs b).FailsIff .outOfRange (∃ x, b.ReadsFirst x ∧ ¬ Held s.versions x) := by
  induction b generalizing s with
  | nil => exact (FailsIff.of_ok rfl).congr (by simp)
  | cons i b ih =>
    have rest : ∀ a, s.instr i = .ok a → (a.2.instrs b).FailsIff .outOfRange
        (∃ x, (i.dest ≠ some x ∧ Block.ReadsFirst b x) ∧ ¬ Held s.versions x) := by
      intro a ha
      refine ih.congr (exists_congr fun x => ?_)
      rw [held_instr ha]
      tauto
    refine (instr_failsIff.bind fun a ha _ =>
      (rest a ha).bind (Q := False) fun _ _ _ => .of_ok rfl).congr ?_
    simp only [or_false, Block.readsFirst_cons, or_and_right, exists_or]

lemma held_instrs {b' : Block} (h : s.instrs b = .ok (b', s')) (x : String) :
    Held s'.versions x ↔ Held s.versions x ∨ b.Defines x := by
  induction b generalizing s b' with
  | nil =>
    cases h
    simp
  | cons i b ih =>
    obtain ⟨i', mid, _, hi, hb, rfl⟩ := instrs_cons h
    rw [ih hb, held_instr hi, Block.defines_cons, or_assoc]

end Instrs

/-- The blocks, phis and edges among which the walk goes, and the tree that it goes down. -/
structure Terrain (blocks : NamedBlocks) (succ dom fr phis tree : FlowMap) (r : String) : Prop where
  nodup : succ.keys.Nodup
  blockKeys : blocks.keys = succ.keys
  passes : ∀ a b, blocks.PassesTo a b ↔ succ.Edge a b
  closed : succ.Closed
  reached : ∀ n ∈ succ.keys, Reach succ.Edge r n
  computed : Computed succ r dom
  frontiers_eq : frontiers dom succ = .ok fr
  phisFor : PhisFor fr blocks.keys (definingBlocks blocks) phis
  tree_eq : Dominators.tree dom = .ok tree

section Terrain

variable {blocks : NamedBlocks} {succ dom fr phis tree : FlowMap} {r n m c x : String} {b : Block}
  {held : String → Prop} {s s' : Renaming} {fuel : Nat}

def Brings (blocks : NamedBlocks) (phis : FlowMap) (n x : String) : Prop :=
  x ∈ phis.getD n [] ∨ ∃ b, blocks.get? n = some b ∧ b.Defines x

/-- A variable has a value at the start of `m`, by those that have one on the way to `n` above. -/
def Arrives (blocks : NamedBlocks) (succ phis : FlowMap) (r : String) (held : String → Prop)
    (n m x : String) : Prop :=
  held x ∨ x ∈ phis.getD m [] ∨ ∃ k, Dominates succ.Edge r n k ∧ Dominates succ.Edge r k m ∧
    k ≠ m ∧ Brings blocks phis k x

/-- Some block below `n` reads a variable without a value. -/
def Unset (blocks : NamedBlocks) (succ phis : FlowMap) (r : String) (held : String → Prop)
    (n : String) : Prop :=
  ∃ m b x, Dominates succ.Edge r n m ∧ blocks.get? m = some b ∧ b.ReadsFirst x ∧
    ¬ Arrives blocks succ phis r held n m x

lemma arrives_self : Arrives blocks succ phis r held n n x ↔ held x ∨ x ∈ phis.getD n [] := by
  refine or_congr_right ⟨?_, .inl⟩
  rintro (h | ⟨k, hk, hk', ne, -⟩)
  · exact h
  · exact absurd (hk'.antisymm hk) ne

lemma arrives_child (im : Immediate succ.Edge r n c) (hm : Dominates succ.Edge r c m) :
    Arrives blocks succ phis r held n m x ↔
      Arrives blocks succ phis r (fun x => held x ∨ Brings blocks phis n x) c m x := by
  constructor
  · rintro (h | h | ⟨k, hnk, hkm, ne, brings⟩)
    · exact .inl (.inl h)
    · exact .inr (.inl h)
    · by_cases hk : k = n
      · exact .inl (.inr (hk ▸ brings))
      · refine .inr (.inr ⟨k, ?_, hkm, ne, brings⟩)
        obtain h | h := hm.total hkm
        · exact h
        · by_cases hkc : k = c
          · subst hkc
            exact .refl hm.reach
          · exact absurd ((im.closest k h hkc).antisymm hnk) hk
  · rintro ((h | h) | h | ⟨k, hck, hkm, ne, brings⟩)
    · exact .inl h
    · refine .inr (.inr ⟨n, .refl im.dominates.reach, im.dominates.trans hm, ?_, h⟩)
      rintro rfl
      exact im.ne (im.dominates.antisymm hm)
    · exact .inr (.inl h)
    · exact .inr (.inr ⟨k, im.dominates.trans hck, hkm, ne, brings⟩)

variable (tr : Terrain blocks succ dom fr phis tree r)
include tr

lemma Terrain.keys_phis : phis.keys = succ.keys := tr.phisFor.keys.trans tr.blockKeys

lemma Terrain.child_iff : c ∈ tree.getD n [] ↔ Immediate succ.Edge r n c := by
  constructor
  · intro h
    have mem := (((tr.computed.tree_spec tr.nodup tr.tree_eq).mem _ c).mp h).1.1
    have key := FlowMap.mem_keys_of_edge (m := dom) mem
    rw [tr.computed.keys] at key
    exact (tr.computed.child_iff tr.nodup tr.tree_eq (tr.reached c key)).mp h
  · intro h
    exact (tr.computed.child_iff tr.nodup tr.tree_eq h.dominates.1).mpr h

lemma unset_iff (hn : n ∈ succ.keys) (hb : blocks.get? n = some b) :
    Unset blocks succ phis r held n ↔
      (∃ x, b.ReadsFirst x ∧ ¬ (held x ∨ x ∈ phis.getD n [])) ∨
      ∃ c ∈ tree.getD n [],
        Unset blocks succ phis r (fun x => held x ∨ Brings blocks phis n x) c := by
  constructor
  · rintro ⟨m, b', x, hm, hb', reads, not⟩
    by_cases e : n = m
    · subst e
      obtain rfl := Option.mem_unique hb hb'
      exact .inl ⟨x, reads, arrives_self.not.mp not⟩
    · obtain ⟨c, hc, hcm⟩ := tr.computed.exists_child tr.nodup tr.tree_eq hm e
      have im := tr.child_iff.mp hc
      exact .inr ⟨c, hc, m, b', x, hcm, hb', reads, (arrives_child im hcm).not.mp not⟩
  · rintro (⟨x, reads, not⟩ | ⟨c, hc, m, b', x, hcm, hb', reads, not⟩)
    · exact ⟨n, b, x, .refl (tr.reached n hn), hb, reads, arrives_self.not.mpr not⟩
    · have im := tr.child_iff.mp hc
      exact ⟨m, b', x, im.dominates.trans hcm, hb', reads, (arrives_child im hcm).not.mpr not⟩

open Classical in
/-- How many blocks a block dominates. -/
noncomputable def below (succ : FlowMap) (r n : String) : Nat :=
  succ.keys.toFinset.filter (Dominates succ.Edge r n) |>.card

omit tr in
lemma below_lt (known : ∀ a, Reach succ.Edge r a → a ∈ succ.keys) (im : Immediate succ.Edge r n c) :
    below succ r c < below succ r n := by
  refine Finset.card_lt_card ((Finset.ssubset_iff_of_subset fun m hm => ?_).mpr ⟨n, ?_, ?_⟩)
  · simp only [Finset.mem_filter] at hm ⊢
    exact ⟨hm.1, im.dominates.trans hm.2⟩
  · have reach := im.dominates.reach
    simpa using ⟨known n reach, .refl reach⟩
  · simp only [Finset.mem_filter, not_and]
    exact fun _ h => im.ne (im.dominates.antisymm h)

lemma Terrain.below_pos (hn : n ∈ succ.keys) : 0 < below succ r n := by
  refine Finset.card_pos.mpr ⟨n, ?_⟩
  simpa using ⟨hn, .refl (tr.reached n hn)⟩

lemma Terrain.intact_rename {d : String} (h : rename phis succ tree fuel c s = .ok s')
    (hc : c ∈ tree.getD n []) (hd : d ∈ tree.getD n []) (ne : c ≠ d)
    (hm : Dominates succ.Edge r d m) : s'.blocks.get? m = s.blocks.get? m := by
  obtain ⟨vs, w⟩ := rename_walk tr.phisFor.nodup h
  refine (w.unvisited fun u hu e => ?_).1
  have count := w.count tr.computed tr.nodup tr.tree_eq hm.1
  have none : ¬ Dominates succ.Edge r c m := fun hcm =>
    ne (tr.computed.child_unique tr.nodup tr.tree_eq hc hd hcm hm)
  rw [countP_singleton, if_neg (by simpa using none), countP_eq_zero] at count
  exact count u hu (by simp [e])

omit tr in
lemma held_startPhis {vars : List String} (nd : vars.Nodup) :
    Held (s.startPhis n vars).versions x ↔ Held s.versions x ∨ x ∈ vars := by
  have st := startPhis_started s n nd
  unfold Held
  by_cases hx : x ∈ vars
  · simp [(st.phis x hx).1, hx]
  · rw [st.versions x hx]
    simp [hx]

lemma Terrain.exists_feed (s : Renaming) (n : String) : ∃ s', (succ.getD n []).foldlM
    (fun (s : Renaming) target => do return s.feed n target (← phis.fetch target)) s = .ok s' := by
  have step : ∀ t ∈ succ.getD n [], ∀ s : Renaming, True → ∃ s', (do
      return s.feed n t (← phis.fetch t) : Outcome Renaming) = .ok s' ∧ True := by
    intro t ht s _
    exact ⟨_, ok_bind (fetch_of_mem [] (tr.keys_phis ▸ tr.closed n t ht)) rfl, trivial⟩
  obtain ⟨s', hs', -⟩ := foldlM_total (fun _ => True) step trivial
  exact ⟨s', hs'⟩

/-- The children are walked one after the other, each with the same versions and with its own blocks
as they were. -/
lemma Terrain.children_failsIff {P : String → Prop}
    (each : ∀ c ∈ tree.getD n [], ∀ t : Renaming, t.versions = s.versions →
      (∀ m, Dominates succ.Edge r c m → t.blocks.get? m = blocks.get? m) →
      (rename phis succ tree fuel c t).FailsIff .outOfRange (P c))
    (intact : ∀ c ∈ tree.getD n [], ∀ m, Dominates succ.Edge r c m →
      s.blocks.get? m = blocks.get? m) :
    ((sortNames (tree.getD n [])).foldlM (fun s child => rename phis succ tree fuel child s) s).FailsIff
      .outOfRange (∃ c ∈ tree.getD n [], P c) := by
  have perm : (sortNames (tree.getD n [])).Perm (tree.getD n []) := mergeSort_perm _ _
  refine (FailsIff.foldlM (P := P) (fun rest (t : Renaming) => t.versions = s.versions ∧
    rest.Nodup ∧ (∀ c ∈ rest, c ∈ tree.getD n []) ∧
    ∀ c ∈ rest, ∀ m, Dominates succ.Edge r c m → t.blocks.get? m = blocks.get? m) ?step ?start).congr
    (by simp [perm.mem_iff])
  case start =>
    exact ⟨rfl, perm.nodup_iff.mpr ((tr.computed.tree_spec tr.nodup tr.tree_eq).nodup _),
      fun c hc => perm.mem_iff.mp hc, fun c hc => intact c (perm.mem_iff.mp hc)⟩
  case step =>
    rintro c rest t ⟨same, nd, children, whole⟩
    have hc := children c (by simp)
    refine ⟨each c hc t same (whole c (by simp)), fun t' ht' => ?_⟩
    obtain ⟨vs, w⟩ := rename_walk tr.phisFor.nodup ht'
    obtain ⟨fresh, nd⟩ := nodup_cons.mp nd
    refine ⟨w.versions.trans same, nd, fun d hd => children d (by simp [hd]), fun d hd m hm => ?_⟩
    have ne : c ≠ d := fun e => fresh (e ▸ hd)
    rw [tr.intact_rename ht' hc (children d (by simp [hd])) ne hm, whole d (by simp [hd]) m hm]

/-- The walk below a block fails if a block there reads a variable without a value. -/
lemma rename_failsIff (hn : n ∈ succ.keys) (enough : below succ r n ≤ fuel)
    (intact : ∀ m, Dominates succ.Edge r n m → s.blocks.get? m = blocks.get? m) :
    (rename phis succ tree fuel n s).FailsIff .outOfRange
      (Unset blocks succ phis r (Held s.versions) n) := by
  induction fuel generalizing n s with
  | zero =>
    have := tr.below_pos hn
    omega
  | succ fuel ih =>
    obtain ⟨b, hb⟩ := mem_keys.mp (tr.blockKeys ▸ hn)
    have hvars := fetch_of_mem [] (tr.keys_phis ▸ hn)
    have hcs := fetch_of_mem [] ((tr.computed.tree_spec tr.nodup tr.tree_eq).keys ▸ hn)
    have nd := tr.phisFor.nodup n
    have st := startPhis_started s n nd
    have code : (s.startPhis n (phis.getD n [])).blocks.fetch n = .ok b := by
      rw [st.blocks, fetch_eq_ok, intact n (.refl (tr.reached n hn)), hb]
    refine (FailsIff.bind_ok hvars <| FailsIff.bind_ok code <|
      instrs_failsIff.bind (Q := ∃ c ∈ tree.getD n [], Unset blocks succ phis r
        (fun x => Held s.versions x ∨ Brings blocks phis n x) c) fun a ha _ => ?_).congr ?_
    · obtain ⟨renamed, s₁⟩ := a
      obtain ⟨s₂, hs₂⟩ := tr.exists_feed { s₁ with blocks := s₁.blocks.put n renamed } n
      have fed := foldlM_feed tr.phisFor.nodup hs₂
      refine FailsIff.bind_ok (fetch_of_mem [] hn) <| FailsIff.bind_ok hs₂ <| FailsIff.bind_ok hcs <|
        ((tr.children_failsIff (fun c hc t same whole => ?_) fun c hc m hm => ?_).bind
          (Q := False) fun _ _ _ => .of_ok rfl).congr (iff_of_eq (or_false _))
      · have im := tr.child_iff.mp hc
        have less := below_lt tr.computed.nodes im
        have held : Held t.versions = fun x => Held s.versions x ∨ Brings blocks phis n x := by
          funext x
          rw [same, fed.versions, held_instrs ha, held_startPhis nd, Brings, hb, or_assoc]
          simp
        exact held ▸ ih (tr.computed.nodes c im.dominates.1) (by omega) whole
      · have im := tr.child_iff.mp hc
        have ne : m ≠ n := fun e => im.ne (im.dominates.antisymm (e ▸ hm))
        rw [fed.blocks, get?_put_other ne, (instrs_same ha).blocks, st.blocks,
          intact m (im.dominates.trans hm)]
    · rw [unset_iff tr hn hb]
      simp only [held_startPhis nd]

lemma Terrain.phi_path (h : x ∈ phis.getD n []) :
    ∃ d b, blocks.get? d = some b ∧ b.Defines x ∧ Relation.TransGen succ.Edge d n := by
  have step : ∀ d b, fr.Edge d b → Relation.TransGen succ.Edge d b := by
    intro d b e
    obtain ⟨⟨p, hp, e⟩, -⟩ := (tr.computed.mem_frontiers tr.nodup tr.frontiers_eq).mp e
    have reach := tr.reached p (FlowMap.mem_keys_of_edge e)
    exact .tail' ((tr.computed.exact p reach d).mp hp).path e
  obtain ⟨d, b, hb, assigns, path⟩ := tr.phisFor.defined (tr.blockKeys ▸ tr.nodup) h
  exact ⟨d, b, hb, assigns, path.trans_induction_on (fun e => step _ _ e) fun _ _ => .trans⟩

lemma Terrain.carry {k p : String} (brings : Brings blocks phis k x)
    (hk : Dominates succ.Edge r k p) (e : succ.Edge p n) :
    Arrives blocks succ phis r held r n x := by
  have reach : Reach succ.Edge r n := hk.1.step e
  by_cases inside : Dominates succ.Edge r k n ∧ k ≠ n
  · exact .inr (.inr ⟨k, .root inside.1.reach, inside.1, inside.2, brings⟩)
  · refine .inr (.inl (tr.phisFor.of_frontier ?_ brings))
    rw [tr.computed.mem_frontiers tr.nodup tr.frontiers_eq, tr.computed.exact n reach]
    refine ⟨⟨p, (tr.computed.exact p hk.1 k).mpr hk, e⟩, ?_⟩
    obtain h | h := not_and_or.mp inside
    · exact .inl h
    · exact .inr (not_not.mp h).symm

/-- A variable arrives in a block if it is there from the start or a path leads to the block from an
assignment. -/
lemma Terrain.arrives_iff :
    Arrives blocks succ phis r held r n x ↔ held x ∨ blocks.AssignedBefore x n := by
  have same : blocks.PassesTo = succ.Edge := by
    funext a b
    exact propext (tr.passes a b)
  unfold NamedBlocks.AssignedBefore
  rw [same]
  constructor
  · rintro (h | h | ⟨k, -, hk, ne, brings⟩)
    · exact .inl h
    · exact .inr (tr.phi_path h)
    · have path := (Relation.reflTransGen_iff_eq_or_transGen.mp hk.path).resolve_left ne.symm
      obtain h | ⟨b, hb, assigns⟩ := brings
      · obtain ⟨d, b, hb, assigns, before⟩ := tr.phi_path h
        exact .inr ⟨d, b, hb, assigns, before.trans path⟩
      · exact .inr ⟨k, b, hb, assigns, path⟩
  · rintro (h | ⟨d, b, hb, assigns, path⟩)
    · exact .inl h
    -- Along the path, one edge after the other.
    induction path with
    | single e =>
      have reach := tr.reached d (FlowMap.mem_keys_of_edge e)
      exact tr.carry (.inr ⟨b, hb, assigns⟩) (.refl reach) e
    | @tail p n _ e ih =>
      obtain h | h | ⟨k, -, hk, -, brings⟩ := ih
      · exact .inl h
      · exact tr.carry (.inl h) (.refl (tr.reached p (FlowMap.mem_keys_of_edge e))) e
      · exact tr.carry brings hk e

lemma Terrain.unset_start_iff {args : List String} :
    Unset blocks succ phis r (Held (.ofList (args.map fun v => (v, [v])))) r ↔
      blocks.ReadsUnset args := by
  have held : ∀ x, Held (.ofList (args.map fun v => (v, [v]))) x ↔ x ∈ args := by
    intro x
    by_cases hx : x ∈ args <;> simp [Held, Table.getD, get?_ofList_map, hx]
  unfold Unset NamedBlocks.ReadsUnset
  simp only [tr.arrives_iff, held, not_or]
  constructor
  · rintro ⟨m, b, x, -, h⟩
    exact ⟨m, b, x, h⟩
  · rintro ⟨m, b, x, hb, h⟩
    exact ⟨m, b, x, .root (tr.reached m (tr.blockKeys ▸ mem_keys.mpr ⟨b, hb⟩)), hb, h⟩

lemma Terrain.below_le : below succ r n ≤ blocks.size := by
  classical
  calc below succ r n ≤ succ.keys.toFinset.card := Finset.card_filter_le _ _
    _ ≤ succ.keys.length := toFinset_card_le _
    _ = blocks.size := by rw [← tr.blockKeys, Table.keys, length_map, Table.size]

lemma Terrain.phi_of_source (h : rename phis succ tree fuel r s = .ok s')
    (start : s.sources = phis.map fun vs => .ofList (vs.map fun v => (v, [])))
    (hx : x ∈ (s'.sources.getD n .empty).keys) : x ∈ phis.getD n [] := by
  obtain ⟨vs, w⟩ := rename_walk tr.phisFor.nodup h
  obtain hx | ⟨u, -, p, hands⟩ := (w.sourceKeys n x).mp hx
  · rwa [start, keys_sources (tr.phisFor.nodup n)] at hx
  · exact hands.2.1

end Terrain

section Function

variable {f : Func} {is : List Instr} {blocks : NamedBlocks} {r : String}

/-- Where all blocks can be reached, the walk can be prepared. -/
lemma exists_terrain (hb : NamedBlocks.explicit is = .ok blocks) (hr : blocks.entry = .ok r)
    (targeted : blocks.Targeted) (un : NamedBlocks.EntryUnnamed is)
    (reached : ∀ n ∈ blocks.keys, Relation.ReflTransGen blocks.PassesTo r n) :
    ∃ succ dom fr phis tree, blocks.successors = .ok succ ∧ compute succ r = .ok dom ∧
      placePhis blocks fr (definingBlocks blocks) = .ok phis ∧
      Terrain blocks succ dom fr phis tree r := by
  have nd := NamedBlocks.nodup_explicit hb
  obtain ⟨succ, hsucc, closed⟩ := NamedBlocks.exists_successors nd targeted
  obtain ⟨keys, -⟩ := NamedBlocks.successors_spec hsucc
  have passes : ∀ a b, blocks.PassesTo a b ↔ succ.Edge a b := fun a b =>
    NamedBlocks.passesTo_iff_edge hsucc
  have entry : r ∈ succ.keys := keys ▸ mem_of_mem_head? (NamedBlocks.head?_keys hr)
  have nd' : succ.keys.Nodup := keys ▸ nd
  obtain ⟨dom, hdom, computed⟩ := exists_computed nd' (fun a _ => closed a) entry
    fun a _ => NamedBlocks.not_edge_entry un hb hr hsucc a
  obtain ⟨fr, hfr⟩ := computed.exists_frontiers nd'
  obtain ⟨tree, htree, _⟩ := computed.exists_tree nd'
  obtain ⟨phis, hphis, phisFor⟩ : ∃ phis, placePhis blocks fr (definingBlocks blocks) = .ok phis ∧
      PhisFor fr blocks.keys (definingBlocks blocks) phis := by
    refine exists_placePhis nodup_definingBlocks (keys ▸ frontiersOn nd' hdom hfr) fun _ _ => ?_
    exact mem_keys_of_defines
  refine ⟨succ, dom, fr, phis, tree, hsucc, hdom, hphis, {
    nodup := nd'
    blockKeys := keys.symm
    passes
    closed
    reached := fun n hn => ?_
    computed
    frontiers_eq := hfr
    phisFor
    tree_eq := htree }⟩
  have path := reached n (keys ▸ hn)
  exact reach_iff.mpr (Relation.ReflTransGen.mono (fun a b => (passes a b).mp) _ _ path)

/-- Where parameters and results have types, all variables have. -/
lemma exists_variableTypes {ps : List Param} (body : f.body = .ok is) (list : f.paramList = .ok ps)
    (params : ∀ p ∈ ps, p.name ≠ none ∧ p.type ≠ none)
    (typed : ∀ i ∈ is, i.dest ≠ none → i.type ≠ none) :
    ∃ types, variableTypes f = .ok types ∧
      ∀ i ∈ is, ∀ x, i.dest = some x → x ∈ types.keys := by
  have note : ∀ p ∈ ps, ∀ t : Table String Ty, True →
      ∃ t', (do return t.put (← p.getName) (← p.getType)) = Except.ok t' ∧ True := by
    intro p hp t _
    obtain ⟨name, type⟩ := params p hp
    obtain ⟨x, hx⟩ := Option.ne_none_iff_exists'.mp name
    obtain ⟨τ, hτ⟩ := Option.ne_none_iff_exists'.mp type
    exact ⟨t.put x τ, ok_bind (ofOption_eq_ok.mpr hx) (ok_bind (ofOption_eq_ok.mpr hτ) rfl),
      trivial⟩
  obtain ⟨start, hstart, -⟩ := foldlM_total (fun _ => True) note (s := .empty) trivial
  simp only [variableTypes, bind_eq_ok, list, body, Except.ok.injEq, exists_eq_left']
  refine (foldlM_marks (s := start) (Q := fun i (t : Table String Ty) =>
    ∀ x, i.dest = some x → x ∈ t.keys) (P := fun _ => True) (fun i hi t _ => ?_) trivial).imp
      fun types h => ⟨⟨start, hstart, h.1⟩, h.2.2.2⟩
  cases hd : i.dest with
  | none => exact ⟨t, rfl, trivial, by simp, fun _ => id⟩
  | some x =>
    obtain ⟨τ, hτ⟩ := Option.ne_none_iff_exists'.mp (typed i hi (by simp [hd]))
    refine ⟨t.put x τ, ok_bind (ofOption_eq_ok.mpr hτ) rfl, trivial, ?_, ?_⟩
    · intro y hy
      cases hy
      exact mem_keys_put.mpr (.inl rfl)
    · exact fun j hj y hy => mem_keys_put.mpr (.inr (hj y hy))

lemma exists_withPhis {s : Renaming} {types : Table String Ty}
    (known : ∀ n x, x ∈ (s.sources.getD n .empty).keys → x ∈ types.keys) :
    ∃ t, withPhis s types = .ok t := by
  have phi_total : ∀ n, ∀ e ∈ (s.sources.getD n .empty).entries, ∃ i, phi s types n e = .ok i := by
    rintro n ⟨x, ps⟩ he
    obtain ⟨τ, hτ⟩ := mem_keys.mp (known n x (mem_keys_of_mem he))
    exact ⟨_, ok_bind (fetch_eq_ok.mpr hτ) rfl⟩
  have each : ∀ e ∈ s.blocks.entries, ∃ e', (do
      let collected := (s.sources.getD e.1 .empty).entries.mergeSort fun a b => decide (a.1 ≤ b.1)
      let phis ← collected.mapM (phi s types e.1)
      return (e.1, phis.reverse ++ e.2)) = Except.ok e' := by
    intro e _
    obtain ⟨phis, hphis⟩ := mapM_total fun p hp =>
      phi_total e.1 p ((mergeSort_perm _ _).mem_iff.mp hp)
    exact ⟨(e.1, phis.reverse ++ e.2), ok_bind hphis rfl⟩
  obtain ⟨es, hes⟩ := mapM_total each
  exact ⟨⟨es⟩, ok_bind hes rfl⟩

/-- A function with blocks that go by names of their own, in which all targets, parameters and results
are declared. -/
structure Declared (f : Func) : Prop where
  nonempty : f.instrs.getD [] ≠ []
  items : ∀ i ∈ f.instrs.getD [], i.IsItem
  named : (NamedBlocks.ofBody (f.instrs.getD [])).size = (Block.split (f.instrs.getD [])).length
  resolved : NamedBlocks.Resolved (f.instrs.getD [])
  typed : ∀ i ∈ f.instrs.getD [], i.dest ≠ none → i.type ≠ none
  params : ∀ p ∈ f.params, p.name ≠ none ∧ p.type ≠ none
  listed : f.args = none → f.extra.lookup "args" = none

namespace Declared

variable (dc : Declared f)
include dc

lemma body_eq : f.body = .ok (f.instrs.getD []) := by
  have some_ := dc.nonempty
  unfold Func.body
  cases h : f.instrs with
  | none => simp [h] at some_
  | some is => rfl

lemma paramList_eq : f.paramList = .ok f.params := by
  have listed := dc.listed
  unfold Func.paramList Func.paramList? Func.params
  cases h : f.args with
  | none =>
    rw [listed h]
    rfl
  | some ps => rfl

lemma mapM_getName : f.params.mapM Param.getName = .ok (paramNames f) := by
  have all := dc.params
  unfold paramNames
  generalize f.params = ps at all ⊢
  induction ps with
  | nil => rfl
  | cons p ps ih =>
    obtain ⟨x, hx⟩ := Option.ne_none_iff_exists'.mp (all p (by simp)).1
    have rest := ih fun q hq => all q (by simp [hq])
    rw [mapM_cons, filterMap_cons_some hx]
    exact ok_bind (ofOption_eq_ok.mpr hx) (ok_bind rest rfl)

end Declared

/-- In a function whose blocks can all be reached, the conversion fails for want of a version exactly
if a block reads a variable that is no parameter and that no assignment gets to. Otherwise there is a
result. -/
theorem enter_outOfRange_iff (f : Func) (dc : Declared f) :
    ∃ blocks r, NamedBlocks.explicit (f.instrs.getD []) = .ok blocks ∧ blocks.entry = .ok r ∧
      ((∀ n ∈ blocks.keys, Relation.ReflTransGen blocks.PassesTo r n) →
        (enter f = .error .outOfRange ↔ blocks.ReadsUnset (paramNames f)) ∧
        (¬ blocks.ReadsUnset (paramNames f) → ∃ g, enter f = .ok g)) := by
  obtain ⟨blocks, r, hb, hr, targeted, un⟩ :=
    NamedBlocks.exists_explicit dc.items dc.named dc.resolved dc.nonempty
  refine ⟨blocks, r, hb, hr, fun reached => ?_⟩
  obtain ⟨succ, dom, fr, phis, tree, hsucc, hdom, hphis, tr⟩ :=
    exists_terrain hb hr targeted un reached
  obtain ⟨types, htypes, known⟩ :=
    exists_variableTypes dc.body_eq dc.paramList_eq dc.params dc.typed
  have entry : r ∈ succ.keys := tr.computed.nodes r .root
  have enough : below succ r r ≤ blocks.size + 1 := Nat.le_succ_of_le tr.below_le
  have fails : (enter f).FailsIff .outOfRange (blocks.ReadsUnset (paramNames f)) := by
    refine FailsIff.bind_ok dc.body_eq <| FailsIff.bind_ok hb <| FailsIff.bind_ok hsucc <|
      FailsIff.bind_ok hr <| FailsIff.bind_ok hdom <| FailsIff.bind_ok tr.frontiers_eq <|
      FailsIff.bind_ok htypes <| FailsIff.bind_ok dc.paramList_eq <|
      FailsIff.bind_ok dc.mapM_getName <| FailsIff.bind_ok hphis <| FailsIff.bind_ok tr.tree_eq <|
      ((rename_failsIff tr entry enough fun m _ => rfl).bind (Q := False) fun s hs _ => ?_).congr ?_
    · -- The variables with phis are assigned, so that they have types.
      obtain ⟨t, ht⟩ : ∃ t, withPhis s types = .ok t := by
        refine exists_withPhis fun n x hx => ?_
        obtain ⟨d, b, hd, ⟨i, hi, hx⟩, -⟩ := tr.phi_path (tr.phi_of_source hs rfl hx)
        obtain hi | on := NamedBlocks.mem_explicit hb hd hi
        · exact known i hi x hx
        · cases on.op.2.1.symm.trans hx
      exact FailsIff.bind_ok ht (.of_ok rfl)
    · rw [or_false, tr.unset_start_iff]
  exact ⟨fails.eq_error_iff, fails.2⟩

end Function

/-- A loop that reads a variable set in the round before, and behind it a read of one set later. -/
def pending : Func where
  name := some "main"
  args := some [Sample.truthParam "c"]
  instrs := some [
    .labelled "loop",
    Sample.effect "print" ["x"],
    Sample.branch "c" "body" "exit",
    .labelled "body",
    Sample.whole "x" 1,
    .jump "loop",
    .labelled "exit",
    Sample.effect "print" ["y"],
    Sample.whole "y" 2]

def pendingBlocks : NamedBlocks := ⟨[
  ("entry1", [.jump "loop"]),
  ("loop", [
    Sample.effect "print" ["x"],
    Sample.branch "c" "body" "exit"]),
  ("body", [
    Sample.whole "x" 1,
    .jump "loop"]),
  ("exit", [
    Sample.effect "print" ["y"],
    Sample.whole "y" 2,
    NamedBlocks.implicitReturn])]⟩

lemma declared_pending : Declared pending where
  nonempty := by simp [pending]
  items := by decide
  named := by decide +kernel
  resolved := by simp [pending, NamedBlocks.Resolved, Instr.Branches, Instr.labelled, Instr.jump]
  typed := by simp [pending, Instr.labelled, Instr.jump]
  params := by simp [pending, Func.params]
  listed := by simp [pending]

theorem enter_outOfRange_iff_pending : Declared pending ∧
    NamedBlocks.explicit (pending.instrs.getD []) = .ok pendingBlocks ∧
    (∀ n ∈ pendingBlocks.keys, Relation.ReflTransGen pendingBlocks.PassesTo "entry1" n) ∧
    enter pending = .error .outOfRange ∧ pendingBlocks.ReadsUnset ["c"] := by
  obtain ⟨blocks, r, hb, hr, fails⟩ := enter_outOfRange_iff pending declared_pending
  have eval : NamedBlocks.explicit (pending.instrs.getD []) = .ok pendingBlocks := rfl
  obtain rfl : pendingBlocks = blocks := Except.ok.inj (eval.symm.trans hb)
  obtain rfl : "entry1" = r := Except.ok.inj hr
  have loop : Relation.ReflTransGen pendingBlocks.PassesTo "entry1" "loop" :=
    .single ⟨_, _, rfl, rfl, by decide⟩
  have reached : ∀ n ∈ pendingBlocks.keys,
      Relation.ReflTransGen pendingBlocks.PassesTo "entry1" n := by
    intro n hn
    obtain rfl | rfl | rfl | rfl : n = "entry1" ∨ n = "loop" ∨ n = "body" ∨ n = "exit" := by
      simpa [pendingBlocks, Table.keys] using hn
    · exact .refl
    · exact loop
    · exact loop.tail ⟨_, _, rfl, rfl, by decide⟩
    · exact loop.tail ⟨_, _, rfl, rfl, by decide⟩
  have failed : enter pending = .error .outOfRange := by cbv
  exact ⟨declared_pending, eval, reached, failed, (fails reached).1.mp failed⟩

end Ssa

end BrilKit
