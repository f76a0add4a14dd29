import BrilKit.Data.Json.Reader
import BrilKit.Text.Letters
import Mathlib

/-!
# Runs of decimal digits

What a run of digits denotes, how far a reader of digits goes, and that numerals have no upper case.
-/

namespace BrilKit

open List

variable {p : Char → Bool} {cs rest : List Char}

namespace Decimal

variable {ds : List Char}

lemma digitsValue_eq_ofDigitChars (ds : List Char) : digitsValue ds = Nat.ofDigitChars 10 ds 0 :=
  Nat.ofDigitChars_eq_foldl.symm

lemma digitsValue_append (ds es : List Char) :
    digitsValue (ds ++ es) = digitsValue ds * 10 ^ es.length + digitsValue es := by
  simp only [digitsValue_eq_ofDigitChars]
  rw [Nat.ofDigitChars_append, Nat.ofDigitChars_eq_ofDigitChars_zero, Nat.mul_comm]

@[simp] lemma digitsValue_nil : digitsValue [] = 0 := rfl

@[simp] lemma digitsValue_digitsOf (n : Nat) : digitsValue (digitsOf n) = n := by
  rw [digitsValue_eq_ofDigitChars, digitsOf, Nat.ofDigitChars_ten_toDigits]

@[simp] lemma digitsValue_replicate_zero (n : Nat) : digitsValue (List.replicate n '0') = 0 := by
  rw [digitsValue_eq_ofDigitChars, Nat.ofDigitChars_replicate_zero, Nat.mul_zero]

lemma digitsValue_zero_cons (ds : List Char) : digitsValue ('0' :: ds) = digitsValue ds := by
  have h := digitsValue_append ['0'] ds
  rwa [show digitsValue ['0'] = 0 from rfl, Nat.zero_mul, Nat.zero_add] at h

lemma isDigit_of_mem_digitsOf {n : Nat} {c : Char} (h : c ∈ digitsOf n) : c.isDigit = true :=
  Nat.isDigit_of_mem_toDigits (by decide) (by decide) h

lemma digitsOf_ne_nil (n : Nat) : digitsOf n ≠ [] := Nat.toDigits_ne_nil

lemma lt_pow_length_digitsOf (n : Nat) : n < 10 ^ (digitsOf n).length :=
  (Nat.length_toDigits_le_iff (by decide) Nat.length_toDigits_pos).mp (Nat.le_refl _)

lemma pow_length_digitsOf_le {n : Nat} (h : 0 < n) : 10 ^ ((digitsOf n).length - 1) ≤ n := by
  by_contra hn
  have hlt : n < 10 ^ ((digitsOf n).length - 1) := Nat.lt_of_not_le hn
  have hpos : 0 < (digitsOf n).length := Nat.length_toDigits_pos
  rcases Nat.eq_zero_or_pos ((digitsOf n).length - 1) with e | e
  · rw [e] at hlt
    omega
  · have := (Nat.length_toDigits_le_iff (by decide) e).mpr hlt
    rw [← digitsOf] at this
    omega

end Decimal

/-- A text that does not go on with a character of a class. -/
def StopsBefore (p : Char → Bool) (cs : List Char) : Prop := ∀ c ∈ cs.head?, p c = false

lemma stopsBefore_cons {c : Char} : StopsBefore p (c :: cs) ↔ p c = false := by
  simp [StopsBefore]

lemma takeWhile_run (h : ∀ c ∈ cs, p c = true) (stop : StopsBefore p rest) :
    (cs ++ rest).takeWhile p = cs := by
  rw [takeWhile_append_of_pos h]
  cases rest with
  | nil => simp
  | cons c rest => simp [stopsBefore_cons.mp stop]

lemma dropWhile_run (h : ∀ c ∈ cs, p c = true) (stop : StopsBefore p rest) :
    (cs ++ rest).dropWhile p = rest := by
  rw [dropWhile_append_of_pos h]
  cases rest with
  | nil => rfl
  | cons c rest => simp [stopsBefore_cons.mp stop]

namespace Json

lemma digits_append {ds rest : List Char} (h : ∀ c ∈ ds, c.isDigit = true)
    (stop : StopsBefore Char.isDigit rest) : digits (ds ++ rest) = (ds, rest) := by
  rw [digits, takeWhile_run h stop, dropWhile_run h stop]

end Json

namespace Letters

def IsLower (s : String) : Prop := ∀ c ∈ s.toList, lower c = c

lemma lowerText_of_isLower {s : String} (h : IsLower s) : lowerText s = s := by
  apply String.toList_injective
  rw [lowerText, String.toList_map]
  conv_rhs => rw [← map_id s.toList]
  exact map_congr_left h

lemma lower_of_isDigit {c : Char} (h : c.isDigit = true) : lower c = c := by
  have hn : c.toNat ≤ 57 := by
    simp only [Char.isDigit, Bool.and_eq_true, decide_eq_true_eq] at h
    exact h.2
  have hu : ¬ (65 : UInt32) ≤ c.val := by
    intro hu
    have : (65 : Nat) ≤ c.toNat := hu
    omega
  simp [lower, Char.toLower, show c.toNat < 128 by omega, hu]

end Letters

end BrilKit
