import BrilKit.Ssa.Versions.Names
import Mathlib.Data.List.Basic
import Mathlib.Tactic.Lemma

/-!
# Names of versions

The name of a version tells its variable and its number: the number has no dot, so the last dot
stands between the two.
-/

namespace BrilKit

open List

namespace Ssa

variable {x y : String} {m n : Nat}

lemma dot_not_mem_toDigits : '.' ∉ Nat.toDigits 10 n := by
  intro h
  have hd := Nat.isDigit_of_mem_toDigits (by decide) (by decide) h
  revert hd
  decide

lemma toList_versionOf : (versionOf x n).toList = x.toList ++ '.' :: Nat.toDigits 10 n := by
  simp [versionOf]

lemma append_dot_inj {a b c d : List Char} (hb : '.' ∉ b) (hd : '.' ∉ d)
    (h : a ++ '.' :: b = c ++ '.' :: d) : a = c ∧ b = d := by
  obtain ⟨e, h1, h2⟩ | ⟨e, h1, h2⟩ := append_eq_append_iff.mp h
  · cases e with
    | nil => exact ⟨by simpa using h1.symm, by simpa using h2⟩
    | cons z e =>
      obtain ⟨_, rfl⟩ := List.cons.inj h2
      simp at hb
  · cases e with
    | nil => exact ⟨by simpa using h1, by simpa using h2.symm⟩
    | cons z e =>
      obtain ⟨_, rfl⟩ := List.cons.inj h2
      simp at hd

lemma versionOf_inj (h : versionOf x m = versionOf y n) : x = y ∧ m = n := by
  have e := congrArg String.toList h
  rw [toList_versionOf, toList_versionOf] at e
  obtain ⟨hx, hn⟩ := append_dot_inj dot_not_mem_toDigits dot_not_mem_toDigits e
  refine ⟨String.toList_inj.mp hx, ?_⟩
  rw [← Nat.ofDigitChars_ten_toDigits (n := m), hn, Nat.ofDigitChars_ten_toDigits]

lemma dot_mem_versionOf : '.' ∈ (versionOf x n).toList := by simp [toList_versionOf]

lemma ne_versionOf {x y : String} {n : Nat} (h : '.' ∉ x.toList) : x ≠ versionOf y n := by
  rintro rfl
  exact h dot_mem_versionOf

lemma variableOf_versionOf (h : '.' ∉ x.toList) : variableOf (versionOf x n) = x := by
  rw [variableOf, nameParts, toList_versionOf, splitOn_append_cons_self_of_not_mem h,
    splitOn_eq_singleton dot_not_mem_toDigits]
  simp

lemma nameParts_of_undotted (h : '.' ∉ x.toList) : nameParts x = [x] := by
  rw [nameParts, splitOn_eq_singleton h]
  simp

lemma variableOf_of_undotted (h : '.' ∉ x.toList) : variableOf x = "" := by
  rw [variableOf, nameParts_of_undotted h]
  rfl

lemma stem_of_undotted (h : '.' ∉ x.toList) : stem x = x := by
  rw [stem, nameParts_of_undotted h]
  rfl

lemma stem_versionOf (h : '.' ∉ x.toList) : stem (versionOf x n) = x := by
  rw [stem, nameParts, toList_versionOf, splitOn_append_cons_self_of_not_mem h]
  simp

end Ssa

end BrilKit
