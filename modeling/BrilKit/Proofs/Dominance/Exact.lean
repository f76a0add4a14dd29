import BrilKit.Proofs.Dominance.Compute

/-!
# The computation of dominators comes to an end

On a map whose edges lead to nodes of the map, no look-up fails. With `compute_spec` the computation
gives, for every node that can be reached, the nodes that lie on all routes to it.
-/

namespace BrilKit

open List Outcome Table

section Routes

variable {α : Type} {E : α → α → Prop} {r n x : α} {route : List α}

/-- The nodes on a route from the root to a node, in order and with both ends. -/
inductive Route (E : α → α → Prop) (r : α) : α → List α → Prop where
  | root : Route E r r [r]
  | step {a b : α} {route : List α} : Route E r a route → E a b → Route E r b (route ++ [b])

lemma Route.reach (h : Route E r n route) : Reach E r n := by
  induction h with
  | root => exact .root
  | step _ e ih => exact ih.step e

lemma Route.last (h : Route E r n route) : n ∈ route := by
  cases h with
  | root => simp
  | step => simp

lemma Reach.exists_route (h : Reach E r n) : ∃ route, Route E r n route := by
  induction h with
  | root => exact ⟨[r], .root⟩
  | step _ e ih =>
    obtain ⟨route, hroute⟩ := ih
    exact ⟨route ++ [_], hroute.step e⟩

lemma Route.avoids (h : Route E r n route) (hx : x ∉ route) : Avoids E r x n := by
  induction h with
  | root =>
    apply Avoids.root
    rintro rfl
    exact hx (by simp)
  | step _ e ih =>
    simp only [mem_append, mem_singleton, not_or] at hx
    exact (ih hx.1).step e (Ne.symm hx.2)

lemma Avoids.exists_route (h : Avoids E r x n) : ∃ route, Route E r n route ∧ x ∉ route := by
  induction h with
  | root hr => exact ⟨[r], .root, by simpa using hr.symm⟩
  | step _ e hb ih =>
    obtain ⟨route, hroute, hx⟩ := ih
    exact ⟨route ++ [_], hroute.step e, by simp [hx, hb.symm]⟩

lemma dominates_iff (h : Reach E r n) :
    Dominates E r x n ↔ ∀ route, Route E r n route → x ∈ route := by
  constructor
  · intro hd route hroute
    by_contra hx
    exact hd.2 (hroute.avoids hx)
  · intro hall
    refine ⟨h, fun ha => ?_⟩
    obtain ⟨route, hroute, hx⟩ := ha.exists_route
    exact hx (hall route hroute)

end Routes

namespace Dominators

variable {succ : FlowMap} {r : String}

lemma exists_computed (nd : succ.keys.Nodup)
    (closed : ∀ a ∈ succ.keys, ∀ b ∈ succ.getD a [], b ∈ succ.keys) (hr : r ∈ succ.keys)
    (root : ∀ a ∈ succ.keys, r ∉ succ.getD a []) :
    ∃ dom, compute succ r = .ok dom ∧ Computed succ r dom := by
  have edges : succ.Closed := fun a b e => closed a (FlowMap.mem_keys_of_edge e) b e
  have free : ∀ a, ¬ succ.Edge a r := fun a e => root a (FlowMap.mem_keys_of_edge e) e
  obtain ⟨dom, _, _, hdom, _⟩ := exists_compute nd edges hr
  exact ⟨dom, hdom, compute_spec nd free hdom⟩

/-- Dominators are computed on every map whose edges lead to nodes of the map, from every entry that
no edge leads to. A node that can be reached is given the nodes on all routes to it, any other node
is given the nodes that can be reached. -/
theorem compute_exact (nd : succ.keys.Nodup)
    (closed : ∀ a ∈ succ.keys, ∀ b ∈ succ.getD a [], b ∈ succ.keys) (hr : r ∈ succ.keys)
    (root : ∀ a ∈ succ.keys, r ∉ succ.getD a []) :
    ∃ dom, compute succ r = .ok dom ∧ dom.keys = succ.keys ∧ ∀ n ∈ succ.keys,
      ((∃ route, Route succ.Edge r n route) →
        ∀ d, d ∈ dom.getD n [] ↔ ∀ route, Route succ.Edge r n route → d ∈ route) ∧
      ((¬ ∃ route, Route succ.Edge r n route) →
        ∀ d, d ∈ dom.getD n [] ↔ ∃ route, Route succ.Edge r d route) := by
  have reached : ∀ n, (∃ route, Route succ.Edge r n route) ↔ Reach succ.Edge r n :=
    fun n => ⟨fun h => h.elim fun _ h => h.reach, fun h => h.exists_route⟩
  obtain ⟨dom, hdom, cp⟩ := exists_computed nd closed hr root
  refine ⟨dom, hdom, cp.keys, fun n hn => ⟨fun h d => ?_, fun h d => ?_⟩⟩
  · have h := (reached n).mp h
    rw [cp.exact n h d, dominates_iff h]
  · rw [cp.others n hn (fun hr => h ((reached n).mpr hr)) d, reached]

/-- A loop with two entries, an edge given twice, and a node that cannot be reached with an edge to
one that can. -/
def tangled : FlowMap :=
  ⟨[("top", ["left", "right"]), ("left", ["right", "right"]), ("right", ["left", "end"]),
    ("end", []), ("lost", ["end"])]⟩

theorem compute_exact_tangled : ∃ dom, compute tangled "top" = .ok dom ∧
    (∀ d, d ∈ dom.getD "end" [] ↔ d = "top" ∨ d = "right" ∨ d = "end") ∧
    (∀ route, Route tangled.Edge "top" "end" route → "right" ∈ route) ∧
    ¬ ∃ route, Route tangled.Edge "top" "lost" route := by
  have nd : tangled.keys.Nodup := by decide
  have closed : ∀ a ∈ tangled.keys, ∀ b ∈ tangled.getD a [], b ∈ tangled.keys := by decide
  have root : ∀ a ∈ tangled.keys, "top" ∉ tangled.getD a [] := by decide
  obtain ⟨dom, hdom, _, hall⟩ := compute_exact nd closed (by decide) root
  obtain rfl := Except.ok.inj hdom
  have route : Route tangled.Edge "top" "end" ["top", "right", "end"] :=
    .step (.step .root (show "right" ∈ tangled.getD "top" [] by decide))
      (show "end" ∈ tangled.getD "right" [] by decide)
  refine ⟨_, hdom, ?_, ?_, ?_⟩
  · intro d
    show d ∈ ["top", "right", "end"] ↔ _
    simp
  · exact ((hall "end" (by decide)).1 ⟨_, route⟩ "right").mp (by decide)
  · intro h
    exact absurd (((hall "lost" (by decide)).1 h "lost").mpr fun _ hr => hr.last) (by decide)

end Dominators

end BrilKit
