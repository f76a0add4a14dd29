import Mathlib.Data.List.Basic
import Mathlib.Logic.Relation
import Mathlib.Tactic.Lemma

/-!
# Dominance along paths

A node dominates another one if every path from the root to the latter goes through it. The
dominators of a node form a chain.
-/

namespace BrilKit

open List

variable {α : Type} {E : α → α → Prop} {r a b c d n x y z : α} {l : List α}

/-- There is a path from the root to a node. -/
inductive Reach (E : α → α → Prop) (r : α) : α → Prop where
  | root : Reach E r r
  | step {a b : α} : Reach E r a → E a b → Reach E r b

lemma reach_iff : Reach E r n ↔ Relation.ReflTransGen E r n := by
  constructor
  · intro h
    induction h with
    | root => exact .refl
    | step _ e ih => exact ih.tail e
  · intro h
    induction h with
    | refl => exact .root
    | tail _ e ih => exact ih.step e

/-- There is a path from the root to a node that does not go through `x`. -/
inductive Avoids (E : α → α → Prop) (r x : α) : α → Prop where
  | root : r ≠ x → Avoids E r x r
  | step {a b : α} : Avoids E r x a → E a b → b ≠ x → Avoids E r x b

/-- Every path from the root to `n` goes through `x`, and there is one. -/
def Dominates (E : α → α → Prop) (r x n : α) : Prop := Reach E r n ∧ ¬ Avoids E r x n

lemma Avoids.ne (h : Avoids E r x n) : n ≠ x := by
  cases h with
  | root hr => exact hr
  | step _ _ hb => exact hb

lemma Avoids.reach (h : Avoids E r x n) : Reach E r n := by
  induction h with
  | root _ => exact .root
  | step _ e _ ih => exact ih.step e

/-- A path to `z` that avoids `x` avoids `y` or leads to `y`. -/
lemma Avoids.split (h : Avoids E r x z) (y : α) : Avoids E r y z ∨ Avoids E r x y := by
  induction h with
  | root hr =>
    by_cases hy : r = y
    · subst hy
      exact .inr (.root hr)
    · exact .inl (.root hy)
  | @step a b ha e hb ih =>
    by_cases hy : b = y
    · subst hy
      exact .inr (ha.step e hb)
    · exact ih.imp_left fun h => h.step e hy

/-- A path avoids `x` or goes through it. -/
lemma Reach.avoids_or (h : Reach E r n) (x : α) : Avoids E r x n ∨ Reach E r x := by
  induction h with
  | root =>
    by_cases hx : r = x
    · exact .inr (hx ▸ .root)
    · exact .inl (.root hx)
  | @step a b ha e ih =>
    by_cases hx : b = x
    · exact .inr (hx ▸ ha.step e)
    · exact ih.imp_left fun h => h.step e hx

lemma Reach.first (h : Reach E r n) (hne : x ≠ y) :
    (Avoids E r x n ∧ Avoids E r y n) ∨ Avoids E r x y ∨ Avoids E r y x := by
  induction h with
  | root =>
    by_cases hx : r = x
    · subst hx
      exact .inr (.inr (.root hne))
    · by_cases hy : r = y
      · subst hy
        exact .inr (.inl (.root hne.symm))
      · exact .inl ⟨.root hx, .root hy⟩
  | @step a b _ e ih =>
    obtain ⟨hx, hy⟩ | h := ih
    · by_cases hbx : b = x
      · subst hbx
        exact .inr (.inr (hy.step e hne))
      · by_cases hby : b = y
        · subst hby
          exact .inr (.inl (hx.step e hne.symm))
        · exact .inl ⟨hx.step e hbx, hy.step e hby⟩
    · exact .inr h

lemma Reach.last (h : Reach E r n) (hxy : Avoids E r x y) (hyx : Avoids E r y x) :
    Avoids E r x n ∨ Avoids E r y n := by
  induction h with
  | root =>
    by_cases hx : r = x
    · exact .inr (.root fun hy => hxy.ne (hy ▸ hx))
    · exact .inl (.root hx)
  | @step a b _ e ih =>
    obtain h | h := ih
    · by_cases hb : b = x
      · exact .inr (hb ▸ hyx)
      · exact .inl (h.step e hb)
    · by_cases hb : b = y
      · exact .inl (hb ▸ hxy)
      · exact .inr (h.step e hb)

namespace Dominates

lemma refl (h : Reach E r n) : Dominates E r n n := ⟨h, fun ha => ha.ne rfl⟩

lemma reach (h : Dominates E r x n) : Reach E r x := (h.1.avoids_or x).resolve_left h.2

lemma trans (h : Dominates E r x y) (h' : Dominates E r y z) : Dominates E r x z :=
  ⟨h'.1, fun ha => (ha.split y).elim h'.2 h.2⟩

lemma antisymm (h : Dominates E r x y) (h' : Dominates E r y x) : x = y := by
  by_contra hne
  obtain ⟨_, ha⟩ | ha | ha := h.1.first hne
  · exact ha.ne rfl
  · exact h.2 ha
  · exact h'.2 ha

lemma total (h : Dominates E r x n) (h' : Dominates E r y n) :
    Dominates E r x y ∨ Dominates E r y x := by
  by_cases hxy : Avoids E r x y
  · by_cases hyx : Avoids E r y x
    · exact ((h.1.last hxy hyx).elim h.2 h'.2).elim
    · exact .inr ⟨h.reach, hyx⟩
  · exact .inl ⟨h'.reach, hxy⟩

lemma root (h : Reach E r n) : Dominates E r r n := by
  refine ⟨h, fun ha => ?_⟩
  induction ha with
  | root hr => exact hr rfl
  | step ha _ _ ih => exact ih ha.reach

lemma eq_root (h : Dominates E r x r) : x = r := h.antisymm (root h.reach)

lemma of_edge (h : Dominates E r x b) (hne : x ≠ b) (ha : Reach E r a) (e : E a b) :
    Dominates E r x a :=
  ⟨ha, fun hx => h.2 (hx.step e hne.symm)⟩

lemma path (h : Dominates E r x n) : Relation.ReflTransGen E x n := by
  obtain ⟨reach, avoids⟩ := h
  induction reach with
  | root =>
    obtain rfl := eq_root ⟨.root, avoids⟩
    exact .refl
  | @step a b ha e ih =>
    by_cases hb : b = x
    · exact hb ▸ .refl
    · exact (ih fun ha => avoids (ha.step e hb)).tail e

end Dominates

lemma exists_least {R : α → α → Prop} (total : ∀ x ∈ l, ∀ y ∈ l, R x y ∨ R y x)
    (trans : ∀ x y z, R x y → R y z → R x z) (hne : l ≠ []) : ∃ i ∈ l, ∀ x ∈ l, R i x := by
  induction l with
  | nil => exact absurd rfl hne
  | cons a l ih =>
    have self : R a a := (total a (by simp) a (by simp)).elim id id
    by_cases hnil : l = []
    · subst hnil
      refine ⟨a, by simp, fun x hx => ?_⟩
      obtain rfl : x = a := by simpa using hx
      exact self
    · obtain ⟨i, hi, hall⟩ := ih (fun x hx y hy => total x (by simp [hx]) y (by simp [hy])) hnil
      obtain h | h := total a (by simp) i (by simp [hi])
      · refine ⟨a, by simp, fun x hx => ?_⟩
        obtain rfl | hx := mem_cons.mp hx
        · exact self
        · exact trans a i x h (hall x hx)
      · refine ⟨i, by simp [hi], fun x hx => ?_⟩
        obtain rfl | hx := mem_cons.mp hx
        · exact h
        · exact hall x hx

lemma exists_outermost (hl : ∀ x ∈ l, Dominates E r x n) (hne : l ≠ []) :
    ∃ i ∈ l, ∀ x ∈ l, Dominates E r i x :=
  exists_least (fun x hx y hy => (hl x hx).total (hl y hy)) (fun _ _ _ h h' => h.trans h') hne

lemma exists_closest (hl : ∀ x ∈ l, Dominates E r x n) (hne : l ≠ []) :
    ∃ i ∈ l, ∀ x ∈ l, Dominates E r x i :=
  exists_least (R := fun x y => Dominates E r y x) (fun x hx y hy => (hl y hy).total (hl x hx))
    (fun _ _ _ h h' => h'.trans h) hne

/-- The immediate dominator of a node: a strict dominator that every other one dominates. -/
structure Immediate (E : α → α → Prop) (r a b : α) : Prop where
  dominates : Dominates E r a b
  ne : a ≠ b
  closest : ∀ x, Dominates E r x b → x ≠ b → Dominates E r x a

lemma Immediate.unique {a' : α} (h : Immediate E r a b) (h' : Immediate E r a' b) : a = a' :=
  (h'.closest a h.dominates h.ne).antisymm (h.closest a' h'.dominates h'.ne)

/-- A node that can be reached and dominates no other node. -/
structure Innermost (E : α → α → Prop) (r a : α) : Prop where
  reach : Reach E r a
  alone : ∀ x, Dominates E r a x → x = a

lemma exists_innermost (hl : ∀ x ∈ l, Reach E r x) (hne : l ≠ []) :
    ∃ i ∈ l, ∀ x ∈ l, Dominates E r i x → x = i := by
  induction l with
  | nil => exact absurd rfl hne
  | cons a l ih =>
    by_cases hnil : l = []
    · subst hnil
      exact ⟨a, by simp, fun x hx _ => by simpa using hx⟩
    · obtain ⟨i, hi, alone⟩ := ih (fun x hx => hl x (by simp [hx])) hnil
      by_cases hia : Dominates E r i a
      · refine ⟨a, by simp, fun x hx hax => ?_⟩
        obtain rfl | hx := mem_cons.mp hx
        · rfl
        · obtain rfl := alone x hx (hia.trans hax)
          exact hia.antisymm hax
      · refine ⟨i, by simp [hi], fun x hx hix => ?_⟩
        obtain rfl | hx := mem_cons.mp hx
        · exact absurd hix hia
        · exact alone x hx hix

end BrilKit
