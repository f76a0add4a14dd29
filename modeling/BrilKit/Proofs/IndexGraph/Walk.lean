import BrilKit.IndexGraph.Walk
import BrilKit.Proofs.IndexGraph.Build
import Mathlib.Logic.Relation

/-!
# What a depth-first walk finds

A walk over a graph comes to its end. A block is left when the blocks behind it are: at that time an
edge from a block that has been left leads to another such block, or to one from which the walk
came.
-/

namespace BrilKit

open List Outcome

namespace IndexGraph

open Relation (ReflTransGen)

variable {next : List (List Nat)} {fuel k u v x y : Nat} {ks gray new current before : List Nat}
  {w w' : Walk} {es : List Event}

abbrev Leads (next : List (List Nat)) : Nat → Nat → Prop := ReflTransGen (Arrow next)

lemma Closed.leads (closed : Closed next) (h : Leads next u v) (hu : u < next.length) :
    v < next.length := by
  induction h with
  | refl => exact hu
  | tail _ e _ => exact closed _ _ e

@[simp] lemma left?_enter : (Event.enter k).left? = none := rfl

@[simp] lemma left?_leave : (Event.leave k).left? = some k := rfl

@[simp] lemma left?_restart : Event.restart.left? = none := rfl

def Walk.done (w : Walk) : List Nat := w.events.filterMap Event.left?

/-- When a node was left, each edge from the nodes left until then led to one of them or back to a
node from which there is a path to it. -/
inductive Ordered (next : List (List Nat)) : List Nat → Prop where
  | nil : Ordered next []
  | cons {x : Nat} {xs : List Nat} :
      (∀ u ∈ x :: xs, ∀ v, Arrow next u v → v ∈ x :: xs ∨ Leads next v x) → Ordered next xs →
      Ordered next (x :: xs)

lemma Ordered.of_append {xs ys : List Nat} (h : Ordered next (xs ++ ys)) : Ordered next ys := by
  induction xs with
  | nil => exact h
  | cons x xs ih =>
    cases h with
    | cons _ h => exact ih h

/-- The state of a walk that is on its way through the nodes `gray`. -/
structure OnWay (next : List (List Nat)) (gray : List Nat) (w : Walk) : Prop where
  parts : w.seen.Perm (gray ++ w.done)
  nodup : w.seen.Nodup
  bound : ∀ x ∈ w.seen, x < next.length
  behind : ∀ u ∈ w.done, ∀ v, Arrow next u v → v ∈ w.seen
  ordered : Ordered next w.done

lemma OnWay.mem_seen (h : OnWay next gray w) : x ∈ w.seen ↔ x ∈ gray ∨ x ∈ w.done := by
  rw [h.parts.mem_iff, mem_append]

lemma OnWay.length_lt (h : OnWay next gray w) (hk : k < next.length) (fresh : k ∉ w.seen) :
    w.seen.length < next.length := by
  have sub : (k :: w.seen) ⊆ List.range next.length := by
    intro x hx
    obtain rfl | hx := mem_cons.mp hx
    · exact mem_range.mpr hk
    · exact mem_range.mpr (h.bound x hx)
  have le := ((nodup_cons.mpr ⟨fresh, h.nodup⟩).subperm sub).length_le
  rwa [length_range] at le

lemma OnWay.enter (h : OnWay next gray w) (hk : k < next.length) (fresh : k ∉ w.seen) :
    OnWay next (k :: gray) { seen := k :: w.seen, events := .enter k :: w.events } where
  parts := h.parts.cons k
  nodup := nodup_cons.mpr ⟨fresh, h.nodup⟩
  bound := forall_mem_cons.mpr ⟨hk, h.bound⟩
  behind u hu v e := mem_cons_of_mem k (h.behind u hu v e)
  ordered := h.ordered

lemma OnWay.leave (h : OnWay next (k :: gray) w) (all : ∀ v, Arrow next k v → v ∈ w.seen)
    (from_gray : ∀ v ∈ gray, Leads next v k) :
    OnWay next gray { w with events := .leave k :: w.events } where
  parts := h.parts.trans perm_middle.symm
  nodup := h.nodup
  bound := h.bound
  behind := forall_mem_cons.mpr ⟨all, h.behind⟩
  ordered := by
    have seen : ∀ u ∈ k :: w.done, ∀ v, Arrow next u v → v ∈ w.seen :=
      forall_mem_cons.mpr ⟨all, h.behind⟩
    refine .cons (fun u hu v e => ?_) h.ordered
    obtain hv | hv := h.mem_seen.mp (seen u hu v e)
    · obtain rfl | hv := mem_cons.mp hv
      · exact .inl (by simp)
      · exact .inr (from_gray v hv)
    · exact .inl (mem_cons_of_mem k hv)

/-- A part of a walk that begins at some nodes and adds nodes to those that have been left. -/
structure Grows (next : List (List Nat)) (ks new : List Nat) (w w' : Walk) : Prop where
  events : ∃ es, w'.events = es ++ w.events ∧ es.filterMap Event.left? = new ∧ .restart ∉ es
  seen : w'.seen.Perm (new ++ w.seen)
  reached : ∀ x ∈ new, ∃ k ∈ ks, Leads next k x
  starts : ∀ k ∈ ks, k ∈ w'.seen

lemma Grows.trans {ks' new' : List Nat} {w'' : Walk} (h : Grows next ks new w w')
    (h' : Grows next ks' new' w' w'') : Grows next (ks ++ ks') (new' ++ new) w w'' where
  events := by
    obtain ⟨es, hes, rfl, quiet⟩ := h.events
    obtain ⟨es', hes', rfl, quiet'⟩ := h'.events
    exact ⟨es' ++ es, by rw [hes', hes, append_assoc], by simp, by simp [quiet, quiet']⟩
  seen := by
    rw [append_assoc]
    exact h'.seen.trans (h.seen.append_left new')
  reached x hx := by
    obtain hx | hx := mem_append.mp hx
    · obtain ⟨k, hk, path⟩ := h'.reached x hx
      exact ⟨k, by simp [hk], path⟩
    · obtain ⟨k, hk, path⟩ := h.reached x hx
      exact ⟨k, by simp [hk], path⟩
  starts k hk := by
    obtain hk | hk := mem_append.mp hk
    · exact h'.seen.mem_iff.mpr (mem_append_right _ (h.starts k hk))
    · exact h'.starts k hk

/-- All nodes to which edges lead are visited in turn if each one can be. -/
lemma visits_spec (one : ∀ k < next.length, ∀ w, OnWay next gray w → (∀ v ∈ gray, Leads next v k) →
      next.length - w.seen.length < fuel →
      ∃ w' new, visit next fuel k w = .ok w' ∧ OnWay next gray w' ∧ Grows next [k] new w w')
    (hks : ∀ k ∈ ks, k < next.length) (from_gray : ∀ k ∈ ks, ∀ v ∈ gray, Leads next v k)
    (h : OnWay next gray w) (hfuel : next.length - w.seen.length < fuel) :
    ∃ w' new, ks.foldlM (fun w t => visit next fuel t w) w = .ok w' ∧ OnWay next gray w' ∧
      Grows next ks new w w' := by
  induction ks generalizing w with
  | nil => exact ⟨w, [], rfl, h, ⟨[], by simp⟩, .rfl, by simp, by simp⟩
  | cons k ks ih =>
    obtain ⟨w₁, new₁, run₁, h₁, grows₁⟩ := one k (hks k (by simp)) w h (from_gray k (by simp)) hfuel
    have length := grows₁.seen.length_eq
    rw [length_append] at length
    obtain ⟨w₂, new₂, run₂, h₂, grows₂⟩ := ih (fun t ht => hks t (by simp [ht]))
      (fun t ht => from_gray t (by simp [ht])) h₁ (by omega)
    exact ⟨w₂, new₂ ++ new₁, foldlM_cons_eq_ok.mpr ⟨w₁, run₁, run₂⟩, h₂, grows₁.trans grows₂⟩

/-- A visit comes to its end: the fuel is more than the number of nodes that are left to enter. -/
lemma visit_spec (closed : Closed next) (hk : k < next.length) (h : OnWay next gray w)
    (from_gray : ∀ v ∈ gray, Leads next v k) (hfuel : next.length - w.seen.length < fuel) :
    ∃ w' new, visit next fuel k w = .ok w' ∧ OnWay next gray w' ∧ Grows next [k] new w w' ∧
      (k ∉ w.seen → new.head? = some k) := by
  induction fuel generalizing k gray w with
  | zero => omega
  | succ fuel ih =>
    have targets : itemAt next k = .ok next[k] := by simp [itemAt, hk]
    have arrow : ∀ v, Arrow next k v ↔ v ∈ next[k] := by simp [Arrow, hk]
    rw [visit, targets]
    by_cases fresh : k ∈ w.seen
    · exact ⟨w, [], by simp [fresh], h,
        ⟨⟨[], by simp⟩, .rfl, by simp, by simpa using fresh⟩, absurd fresh⟩
    · have room := h.length_lt hk fresh
      obtain ⟨w', new, run, h', grows⟩ := visits_spec
        (fun t ht w hw path fuel => by
          obtain ⟨w', new, run, hw', grows, -⟩ := ih ht hw path fuel
          exact ⟨w', new, run, hw', grows⟩)
        (fun t ht => closed k t ((arrow t).mpr ht))
        (by
          intro t ht v hv
          have edge := (arrow t).mpr ht
          obtain rfl | hv := mem_cons.mp hv
          · exact .single edge
          · exact (from_gray v hv).tail edge)
        (h.enter hk fresh) (by rw [length_cons]; omega)
      have all : ∀ v, Arrow next k v → v ∈ w'.seen := fun v e => grows.starts v ((arrow v).mp e)
      refine ⟨{ w' with events := .leave k :: w'.events }, k :: new, ?_, h'.leave all from_gray, ?_,
        fun _ => rfl⟩
      · simp only [contains_eq_mem, fresh, decide_false, Bool.false_eq_true, if_false, bind_ok, pure_eq]
        rw [run, bind_ok]
      · obtain ⟨es, hes, rfl, quiet⟩ := grows.events
        have seen := grows.seen.trans perm_middle
        refine ⟨⟨.leave k :: (es ++ [.enter k]), by simp [hes], by simp,
          by simpa using quiet⟩, seen, ?_, ?_⟩
        · refine forall_mem_cons.mpr ⟨⟨k, by simp, .refl⟩, fun x hx => ⟨k, by simp, ?_⟩⟩
          obtain ⟨t, ht, path⟩ := grows.reached x hx
          exact .head ((arrow t).mpr ht) path
        · simpa using seen.mem_iff.mpr (by simp)

lemma groups_quiet {rest : List Event} (quiet : .restart ∉ es) :
    groups current (es ++ rest) = groups (current ++ es.filterMap Event.left?) rest := by
  induction es generalizing current with
  | nil => simp
  | cons e es ih =>
    have tail := fun current => @ih current fun h => quiet (mem_cons_of_mem e h)
    cases e with
    | enter k => simpa [groups, filterMap_cons] using tail current
    | leave k => simpa [groups] using tail (current ++ [k])
    | restart => simp at quiet

lemma ne_nil_of_mem_groups {t : List Nat} (h : t ∈ groups current es) : t ≠ [] := by
  fun_induction groups current es with
  | case1 => simp at h
  | case2 current more => exact fun nil => by simp_all
  | case3 current k es ih => exact ih h
  | case4 current es more ih => exact ih h
  | case5 current es more ih =>
    obtain rfl | h := mem_cons.mp h
    · simpa using more
    · exact ih h
  | case6 current k es ih => exact ih h

lemma flatten_groups : (groups current es).flatten = current ++ es.filterMap Event.left? := by
  fun_induction groups current es with
  | case1 current none => simpa using none
  | case2 => simp
  | case3 current k es ih => simpa using ih
  | case4 current es none ih => simpa [filterMap_cons, isEmpty_iff.mp none] using ih
  | case5 current es more ih => simpa [filterMap_cons] using ih
  | case6 current k es ih => simpa [filterMap_cons] using ih

/-- The nodes that a start leads to and no earlier start does; the start is left last. -/
def IsTree (next : List (List Nat)) (starts t : List Nat) : Prop :=
  ∃ before s behind, starts = before ++ s :: behind ∧ t.getLast? = some s ∧
    ∀ x, x ∈ t ↔ Leads next s x ∧ ∀ p ∈ before, ¬ Leads next p x

/-- The state of a walk between two starts. -/
structure Rests (next : List (List Nat)) (before : List Nat) (w : Walk) : Prop where
  state : OnWay next [] w
  seen : ∀ x, x ∈ w.seen ↔ ∃ p ∈ before, Leads next p x

/-- One start: what is new is what it leads to and has not been seen. -/
lemma Rests.start (closed : Closed next) (h : Rests next before w) (hk : k < next.length) :
    ∃ w' es, visit next (next.length + 2) k w = .ok w' ∧ .restart ∉ es ∧
      w'.events = es ++ w.events ∧
      Rests next (before ++ [k]) { w' with events := .restart :: w'.events } ∧
      (es.filterMap Event.left? ≠ [] → (es.filterMap Event.left?).head? = some k) ∧
      ∀ x, x ∈ es.filterMap Event.left? ↔ Leads next k x ∧ ∀ p ∈ before, ¬ Leads next p x := by
  obtain ⟨w', new, run, state, grows, head⟩ :=
    visit_spec closed hk h.state (by simp) (show _ < next.length + 2 by omega)
  obtain ⟨es, hes, rfl, quiet⟩ := grows.events
  have along : ∀ {x y}, x ∈ w'.seen → Leads next x y → y ∈ w'.seen := by
    intro x y hx path
    induction path with
    | refl => exact hx
    | tail _ e ih => exact state.behind _ (by simpa [state.mem_seen] using ih) _ e
  have new_iff : ∀ x, x ∈ w'.seen ↔ x ∈ es.filterMap Event.left? ∨ x ∈ w.seen := fun x => by
    rw [grows.seen.mem_iff, mem_append]
  have from_k : ∀ x ∈ es.filterMap Event.left?, Leads next k x := by simpa using grows.reached
  have k_seen : k ∈ w'.seen := by simpa using grows.starts
  have fresh : ∀ x ∈ es.filterMap Event.left?, x ∉ w.seen := by
    intro x hx old
    exact (nodup_append'.mp (grows.seen.nodup_iff.mp state.nodup)).2.2 hx old
  refine ⟨w', es, run, quiet, hes, ⟨⟨?_, state.nodup, state.bound, ?_, ?_⟩, fun x => ?_⟩,
    fun some => head fun old => ?_,
    fun x => ⟨fun hx => ⟨from_k x hx, fun p hp path => ?_⟩, fun hx => ?_⟩⟩
  · exact state.parts
  · exact state.behind
  · exact state.ordered
  · have starts : (∃ p ∈ before ++ [k], Leads next p x) ↔ x ∈ w.seen ∨ Leads next k x := by
      simp [h.seen x, or_and_right, exists_or]
    rw [starts]
    constructor
    · intro hx
      exact ((new_iff x).mp hx).symm.imp_right (from_k x)
    · rintro (hx | path)
      · exact (new_iff x).mpr (.inr hx)
      · exact along k_seen path
  · obtain ⟨x, hx⟩ := exists_mem_of_ne_nil _ some
    obtain ⟨p, hp, path⟩ := (h.seen k).mp old
    exact fresh x hx ((h.seen x).mpr ⟨p, hp, path.trans (from_k x hx)⟩)
  · exact fresh x hx ((h.seen x).mpr ⟨p, hp, path⟩)
  · refine ((new_iff x).mp (along k_seen hx.1)).resolve_right fun old => ?_
    obtain ⟨p, hp, path⟩ := (h.seen x).mp old
    exact hx.2 p hp path

/-- The starts in turn. -/
lemma Rests.run {behind : List Nat} (closed : Closed next) (h : Rests next before w)
    (bound : ∀ k ∈ behind, k < next.length) :
    ∃ w' es, behind.foldlM (fun w k => do
        let w ← visit next (next.length + 2) k w
        return { w with events := .restart :: w.events }) w = .ok w' ∧
      Rests next (before ++ behind) w' ∧ w'.events = es ++ w.events ∧
      ∀ t ∈ groups [] es.reverse, IsTree next (before ++ behind) t := by
  induction behind generalizing before w with
  | nil => exact ⟨w, [], rfl, by simpa using h, by simp, by simp [groups]⟩
  | cons k ks ih =>
    obtain ⟨w₁, es₁, run₁, quiet, hes₁, h₁, last, tree⟩ := h.start closed (bound k (by simp))
    obtain ⟨w₂, es₂, run₂, h₂, hes₂, trees⟩ := ih h₁ fun t ht => bound t (by simp [ht])
    rw [append_assoc] at h₂ trees
    refine ⟨w₂, es₂ ++ .restart :: es₁, ?_, h₂, by simp [hes₂, hes₁], ?_⟩
    · exact foldlM_cons_eq_ok.mpr ⟨_, ok_bind run₁ rfl, run₂⟩
    · intro t ht
      rw [reverse_append, reverse_cons, append_assoc, groups_quiet (by simpa),
        nil_append, singleton_append, groups] at ht
      split at ht
      · exact trees t ht
      · next more =>
        obtain rfl | ht := mem_cons.mp ht
        · rw [filterMap_reverse] at more ⊢
          exact ⟨before, k, ks, rfl, by simpa using last (by simpa using more), by simpa using tree⟩
        · exact trees t ht

/-- What a walk yields: it leaves once every node that a start leads to, and the groups between its
starts are the trees. -/
theorem walk_spec (starts : List Nat) (closed : Closed next) (bound : ∀ k ∈ starts, k < next.length) :
    ∃ events, walk next starts = .ok events ∧ (events.filterMap Event.left?).Nodup ∧
      Ordered next (events.filterMap Event.left?).reverse ∧
      (∀ x, x ∈ events.filterMap Event.left? ↔ ∃ s ∈ starts, Leads next s x) ∧
      ∀ t ∈ groups [] events, IsTree next starts t := by
  have init : Rests next [] {} := ⟨⟨.nil, .nil, by simp, by simp [Walk.done], .nil⟩, by simp⟩
  obtain ⟨w, es, run, h, hes, trees⟩ := init.run closed bound
  obtain rfl : w.events = es := by simpa using hes
  have parts : w.seen.Perm w.done := by simpa using h.state.parts
  have left : w.events.reverse.filterMap Event.left? = w.done.reverse := filterMap_reverse
  refine ⟨w.events.reverse, ok_bind run rfl, ?_, ?_, fun x => ?_, trees⟩
  · rw [left, nodup_reverse]
    exact parts.nodup_iff.mp h.state.nodup
  · rw [left, reverse_reverse]
    exact h.state.ordered
  · rw [left, mem_reverse, ← parts.mem_iff]
    exact h.seen x

lemma last_left {s : Nat} (starts : List Nat) {events : List Event}
    (trees : ∀ t ∈ groups [] events, IsTree next (s :: starts) t)
    (more : events.filterMap Event.left? ≠ [])
    (leads : ∀ x ∈ events.filterMap Event.left?, Leads next s x) :
    (events.filterMap Event.left?).getLast? = some s := by
  rw [← nil_append (events.filterMap _), ← flatten_groups] at more leads ⊢
  obtain none | ⟨ts, t, last⟩ := eq_nil_or_concat (groups [] events)
  · exact absurd (by rw [none, flatten_nil]) more
  have ht : t ∈ groups [] events := by simp [last]
  obtain ⟨before, s', behind, parts, final, tree⟩ := trees t ht
  obtain ⟨x, hx⟩ := exists_mem_of_ne_nil t (ne_nil_of_mem_groups ht)
  cases before with
  | nil =>
    obtain rfl := (List.cons.inj parts).1
    simp [last, final]
  | cons b before =>
    obtain rfl := (List.cons.inj parts).1
    exact absurd (leads x (mem_flatten.mpr ⟨t, ht, hx⟩)) (((tree x).mp hx).2 s (by simp))

end IndexGraph

end BrilKit
