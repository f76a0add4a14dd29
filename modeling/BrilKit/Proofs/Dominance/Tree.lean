import BrilKit.Proofs.Dominance.Exact

/-!
# Frontiers and the dominator tree

Where every node can be reached, the frontiers computed are the dominance frontiers and the children
computed are the nodes with a given immediate dominator, so that each node but the entry has one
parent.
-/

namespace BrilKit

open List Outcome

namespace Dominators

variable {succ dom fr tr : FlowMap} {r a b : String}

namespace Computed

variable (cp : Computed succ r dom) (nd : succ.keys.Nodup)
include cp nd

lemma exists_frontiers : ∃ fr, frontiers dom succ = .ok fr := by
  obtain ⟨inv, hinv⟩ := FlowMap.exists_invert (cp.keys ▸ nd) cp.closed
  exact ⟨_, frontiers_eq (cp.keys ▸ nd) cp.keys hinv⟩

lemma child_iff (h : tree dom = .ok tr) (hb : Reach succ.Edge r b) :
    b ∈ tr.getD a [] ↔ Immediate succ.Edge r a b := by
  constructor
  · intro hc
    obtain ⟨hab, hne, closest⟩ := cp.parent_spec nd h hb hc
    exact ⟨hab, hne.symm, closest⟩
  · intro im
    refine ((cp.tree_spec nd h).mem _ b).mpr ⟨⟨(cp.exact b hb a).mpr im.dominates, im.ne.symm⟩, ?_⟩
    intro c hac hca hcb
    have hcb := (cp.exact b hb c).mp hcb
    by_contra hne
    -- A node in between would dominate the immediate dominator.
    exact hca ((im.closest c hcb (Ne.symm hne)).antisymm ((cp.exact c hcb.reach a).mp hac))

omit nd in
/-- Every node that can be reached has an immediate dominator, but for the entry. -/
lemma exists_immediate (hb : Reach succ.Edge r b) (hne : b ≠ r) :
    ∃ a, Immediate succ.Edge r a b := by
  obtain ⟨a, ha, closest⟩ := exists_closest (E := succ.Edge) (r := r) (n := b)
    (l := (dom.getD b []).filter fun x => x != b)
    (fun x hx => (cp.exact b hb x).mp (mem_of_mem_filter hx))
    (ne_nil_of_mem (a := r) (by simp [cp.exact b hb, Dominates.root hb, hne.symm]))
  simp only [mem_filter, cp.exact b hb, bne_iff_ne, and_imp] at ha closest
  exact ⟨a, ha.1, ha.2, closest⟩

lemma lost_child_iff (h : tree dom = .ok tr) (hk : b ∈ succ.keys) (hb : ¬ Reach succ.Edge r b) :
    b ∈ tr.getD a [] ↔ Innermost succ.Edge r a := by
  rw [(cp.tree_spec nd h).mem _ b, cp.others b hk hb]
  constructor
  · rintro ⟨⟨ha, _⟩, between⟩
    refine ⟨ha, fun x hax => ?_⟩
    by_contra hne
    have hx := hax.1
    obtain rfl := between x ((cp.exact x hx a).mpr hax) hne ((cp.others b hk hb x).mpr hx)
    exact hb hx
  · rintro ⟨ha, alone⟩
    refine ⟨⟨ha, fun e => hb (e ▸ ha)⟩, fun c hac hca hcb => ?_⟩
    have hc := (cp.others b hk hb c).mp hcb
    exact absurd (alone c ((cp.exact c hc a).mp hac)) hca

omit nd in
lemma exists_innermost : ∃ a, Innermost succ.Edge r a := by
  classical
  obtain ⟨a, ha, alone⟩ := BrilKit.exists_innermost (E := succ.Edge) (r := r)
    (l := succ.keys.filter fun x => decide (Reach succ.Edge r x))
    (fun x hx => by simpa using (mem_filter.mp hx).2)
    (ne_nil_of_mem (a := r) (by simpa using ⟨cp.nodes r .root, Reach.root⟩))
  refine ⟨a, by simpa using (mem_filter.mp ha).2, fun x hax => alone x ?_ hax⟩
  simpa using ⟨cp.nodes x hax.1, hax.1⟩

end Computed

section Maps

variable (nd : succ.keys.Nodup)
  (closed : ∀ a ∈ succ.keys, ∀ b ∈ succ.getD a [], b ∈ succ.keys) (hr : r ∈ succ.keys)
  (root : ∀ a ∈ succ.keys, r ∉ succ.getD a [])
include nd closed hr root

/-- Where every node can be reached, a frontier has, each once, the nodes with a dominated
predecessor that are not strictly dominated. The children of a node are those with this immediate
dominator, and every node but the entry is the child of one node. -/
theorem frontiers_tree_exact (reached : ∀ n ∈ succ.keys, Reach succ.Edge r n) :
    ∃ dom fr tr, compute succ r = .ok dom ∧ frontiers dom succ = .ok fr ∧ tree dom = .ok tr ∧
      fr.keys = succ.keys ∧ tr.keys = succ.keys ∧
      (∀ a ∈ succ.keys, (fr.getD a []).Nodup ∧ ∀ b, b ∈ fr.getD a [] ↔
        (∃ p, Dominates succ.Edge r a p ∧ succ.Edge p b) ∧
          ¬ (Dominates succ.Edge r a b ∧ a ≠ b)) ∧
      (∀ a ∈ succ.keys, (tr.getD a []).Nodup ∧
        ∀ b, b ∈ tr.getD a [] ↔ Immediate succ.Edge r a b) ∧
      ∀ b ∈ succ.keys, b ≠ r → ∃! a, a ∈ succ.keys ∧ b ∈ tr.getD a [] := by
  obtain ⟨dom, hdom, cp⟩ := exists_computed nd closed hr root
  obtain ⟨fr, hfr⟩ := cp.exists_frontiers nd
  obtain ⟨tr, htr, keys, _, _⟩ := cp.exists_tree nd
  have front := frontiers_spec (cp.keys ▸ nd) cp.keys hfr
  have live : ∀ {a b : String}, a ∈ dom.getD b [] ↔ Dominates succ.Edge r a b := by
    intro a b
    constructor
    · intro h
      have hb : b ∈ succ.keys := cp.keys ▸ FlowMap.mem_keys_of_edge h
      exact (cp.exact b (reached b hb) a).mp h
    · exact fun h => (cp.exact b h.1 a).mpr h
  have child : ∀ {a b : String}, b ∈ tr.getD a [] ↔ Immediate succ.Edge r a b := by
    intro a b
    constructor
    · intro h
      have hab := live.mp (((cp.tree_spec nd htr).mem _ b).mp h).1.1
      exact (cp.child_iff nd htr hab.1).mp h
    · exact fun im => (cp.child_iff nd htr im.dominates.1).mpr im
  refine ⟨dom, fr, tr, hdom, hfr, htr, front.1.trans cp.keys, keys,
    fun a _ => ⟨(front.2 a).1, fun b => ?_⟩,
    fun a _ => ⟨(cp.tree_spec nd htr).nodup a, fun b => child⟩, fun b hb hne => ?_⟩
  · rw [(front.2 a).2]
    simp only [live, not_and_or, not_not, eq_comm]
  · obtain ⟨a, im⟩ := cp.exists_immediate (reached b hb) hne
    refine ⟨a, ⟨cp.nodes a im.dominates.reach, child.mpr im⟩, fun a' h => ?_⟩
    exact (child.mp h.2).unique im

/-- Where some nodes cannot be reached, each of them is a child of every node that dominates nothing
else. So the children form a forest just when every node can be reached or one node only dominates
nothing else. -/
theorem tree_forest_iff : ∃ dom tr, compute succ r = .ok dom ∧ tree dom = .ok tr ∧
    (∀ b, Reach succ.Edge r b → ∀ a, b ∈ tr.getD a [] ↔ Immediate succ.Edge r a b) ∧
    (∀ b ∈ succ.keys, ¬ Reach succ.Edge r b →
      ∀ a, b ∈ tr.getD a [] ↔ Innermost succ.Edge r a) ∧
    ((∀ b a a', b ∈ tr.getD a [] → b ∈ tr.getD a' [] → a = a') ↔
      (∀ n ∈ succ.keys, Reach succ.Edge r n) ∨
        ∃! a, Innermost succ.Edge r a) := by
  obtain ⟨dom, hdom, cp⟩ := exists_computed nd closed hr root
  obtain ⟨tr, htr, _⟩ := cp.exists_tree nd
  have known : ∀ {a b : String}, b ∈ tr.getD a [] → b ∈ succ.keys := fun h =>
    cp.keys ▸ FlowMap.mem_keys_of_edge (((cp.tree_spec nd htr).mem _ _).mp h).1.1
  refine ⟨dom, tr, hdom, htr, fun b hb a => cp.child_iff nd htr hb,
    fun b hk hb a => cp.lost_child_iff nd htr hk hb, ?_⟩
  constructor
  · intro forest
    by_cases all : ∀ n ∈ succ.keys, Reach succ.Edge r n
    · exact .inl all
    · right
      push Not at all
      obtain ⟨b, hk, hb⟩ := all
      obtain ⟨a, inner⟩ := cp.exists_innermost
      refine ⟨a, inner, fun a' inner' => ?_⟩
      exact forest b a' a ((cp.lost_child_iff nd htr hk hb).mpr inner')
        ((cp.lost_child_iff nd htr hk hb).mpr inner)
  · intro few b a a' h h'
    by_cases hb : Reach succ.Edge r b
    · exact ((cp.child_iff nd htr hb).mp h).unique ((cp.child_iff nd htr hb).mp h')
    · have inner := (cp.lost_child_iff nd htr (known h) hb).mp h
      have inner' := (cp.lost_child_iff nd htr (known h) hb).mp h'
      obtain all | one := few
      · exact absurd (all b (known h)) hb
      · exact one.unique inner inner'

end Maps

/-- A loop with two entries, an edge given twice, and an edge from a node to itself. -/
def knotted : FlowMap :=
  ⟨[("top", ["left", "right"]), ("left", ["right", "right"]), ("right", ["left", "right", "end"]),
    ("end", [])]⟩

theorem frontiers_tree_exact_knotted : ∃ dom fr tr, compute knotted "top" = .ok dom ∧
    frontiers dom knotted = .ok fr ∧ tree dom = .ok tr ∧
    (∀ b, b ∈ fr.getD "right" [] ↔ b = "left" ∨ b = "right") ∧
    ¬ (Dominates knotted.Edge "top" "right" "left" ∧ "right" ≠ "left") ∧
    Immediate knotted.Edge "top" "right" "end" ∧
    ∃! a, a ∈ knotted.keys ∧ "end" ∈ tr.getD a [] := by
  have left : knotted.Edge "top" "left" := by decide
  have right : knotted.Edge "top" "right" := by decide
  have last : knotted.Edge "right" "end" := by decide
  have reached : ∀ n ∈ knotted.keys, Reach knotted.Edge "top" n := by
    intro n hn
    obtain rfl | rfl | rfl | rfl : n = "top" ∨ n = "left" ∨ n = "right" ∨ n = "end" := by
      simpa [knotted, Table.keys] using hn
    · exact .root
    · exact .step .root left
    · exact .step .root right
    · exact .step (.step .root right) last
  obtain ⟨dom, fr, tr, hdom, hfr, htr, _, _, front, child, one⟩ :=
    @frontiers_tree_exact knotted "top" (by decide) (by decide) (by decide)
      (by decide) reached
  obtain rfl := Except.ok.inj hdom
  obtain rfl := Except.ok.inj hfr
  obtain rfl := Except.ok.inj htr
  have inner := (front "right" (by decide)).2 "left"
  refine ⟨_, _, _, hdom, hfr, htr, fun b => ?_, (inner.mp (by decide)).2,
    ((child "right" (by decide)).2 "end").mp (by decide), one "end" (by decide) (by decide)⟩
  show b ∈ ["left", "right"] ↔ _
  simp

/-- Two nodes that dominate nothing else, and one that cannot be reached. -/
def forked : FlowMap := ⟨[("top", ["left", "right"]), ("left", []), ("right", []), ("lost", [])]⟩

/-- A node that cannot be reached has two parents. -/
theorem tree_forked : forked.keys.Nodup ∧
    (∀ a ∈ forked.keys, ∀ b ∈ forked.getD a [], b ∈ forked.keys) ∧ "top" ∈ forked.keys ∧
    (∀ a ∈ forked.keys, "top" ∉ forked.getD a []) ∧
    ∃ dom tr, compute forked "top" = .ok dom ∧ tree dom = .ok tr ∧
      "lost" ∈ tr.getD "left" [] ∧ "lost" ∈ tr.getD "right" [] := by
  exact ⟨by decide, by decide, by decide, by decide, _, _, rfl, rfl, by decide, by decide⟩

/-- A chain, and a node that cannot be reached with an edge to its end. -/
def stray : FlowMap := ⟨[("top", ["end"]), ("end", []), ("lost", ["end"])]⟩

theorem tree_forest_iff_stray : ∃ dom tr, compute stray "top" = .ok dom ∧ tree dom = .ok tr ∧
    ¬ Reach stray.Edge "top" "lost" ∧ (∀ a, Innermost stray.Edge "top" a ↔ a = "end") ∧
    ∀ b a a', b ∈ tr.getD a [] → b ∈ tr.getD a' [] → a = a' := by
  have others : ∀ n, Reach stray.Edge "top" n → n ≠ "lost" := by
    intro n h
    cases h with
    | root => decide
    | @step a _ _ e =>
      rintro rfl
      have none : ∀ a ∈ stray.keys, "lost" ∉ stray.getD a [] := by decide
      exact none a (FlowMap.mem_keys_of_edge e) e
  have apart : ¬ Reach stray.Edge "top" "lost" := fun h => others "lost" h rfl
  obtain ⟨dom, tr, hdom, htr, _, lost, forest⟩ :=
    @tree_forest_iff stray "top" (by decide) (by decide) (by decide) (by decide)
  obtain rfl := Except.ok.inj hdom
  obtain rfl := Except.ok.inj (htr.symm.trans (show tree _ = .ok
    ⟨[("top", ["end"]), ("end", ["lost"]), ("lost", [])]⟩ by rfl))
  have inner : ∀ a, Innermost stray.Edge "top" a ↔ a = "end" := by
    intro a
    rw [← lost "lost" (by decide) apart]
    constructor
    · intro h
      have one : ∀ a ∈ (⟨[("top", ["end"]), ("end", ["lost"]), ("lost", [])]⟩ : FlowMap).keys,
          "lost" ∈ (⟨[("top", ["end"]), ("end", ["lost"]), ("lost", [])]⟩ : FlowMap).getD a [] →
          a = "end" := by decide
      exact one a (FlowMap.mem_keys_of_edge h) h
    · rintro rfl
      decide
  exact ⟨_, _, hdom, htr, apart, inner,
    forest.mpr (.inr ⟨"end", (inner "end").mpr rfl, fun a h => (inner a).mp h⟩)⟩

end Dominators

end BrilKit
