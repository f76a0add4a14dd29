import BrilKit.Data.Binary64
import Mathlib

/-!
# The double nearest to a fraction

`ofRatio` depends only on the value of the fraction, and gives a double back for every fraction that
is nearer to it than half the distance to its neighbours.
-/

namespace BrilKit

namespace Binary64

variable {num den m k b : Nat} {e : Int} {negative : Bool} {q : ℚ}

/-! ### Rounding a quotient -/

lemma roundDiv_mul_right (hk : 0 < k) (num den : Nat) :
    roundDiv (num * k) (den * k) = roundDiv num den := by
  simp only [roundDiv, Nat.mul_div_mul_right _ _ hk, Nat.mul_mod_mul_right, ← Nat.mul_assoc,
    Nat.mul_lt_mul_right hk]

lemma roundDiv_bounds (hd : 0 < den) (num : Nat) :
    2 * num ≤ (2 * roundDiv num den + 1) * den ∧ 2 * roundDiv num den * den ≤ 2 * num + den := by
  have hq : den * (num / den) + num % den = num := Nat.div_add_mod num den
  have hr : num % den < den := Nat.mod_lt num hd
  have h0 : 0 ≤ num % den := Nat.zero_le _
  simp only [roundDiv]
  split
  · constructor <;> linarith
  · split
    · constructor <;> linarith
    · split <;> constructor <;> linarith

lemma abs_sub_roundDiv_le (hd : 0 < den) (num : Nat) :
    |(num : ℚ) / den - roundDiv num den| ≤ 1 / 2 := by
  have hdq : (0 : ℚ) < den := by exact_mod_cast hd
  obtain ⟨above, below⟩ := roundDiv_bounds hd num
  have above' : (2 * num : ℚ) ≤ (2 * roundDiv num den + 1) * den := by exact_mod_cast above
  have below' : (2 * roundDiv num den * den : ℚ) ≤ 2 * num + den := by exact_mod_cast below
  rw [abs_le]
  constructor
  · rw [le_sub_iff_add_le, le_div_iff₀ hdq]
    linarith
  · rw [sub_le_iff_le_add, div_le_iff₀ hdq]
    linarith

lemma roundDiv_eq_of_abs_lt (hd : 0 < den) (h : |(num : ℚ) / den - m| < 1 / 2) :
    roundDiv num den = m := by
  have rounded := abs_le.mp (abs_sub_roundDiv_le hd num)
  have near := abs_lt.mp h
  have close : |(roundDiv num den : ℚ) - m| < 1 := abs_lt.mpr ⟨by linarith, by linarith⟩
  have : |(roundDiv num den : Int) - m| < 1 := by exact_mod_cast close
  rw [Int.abs_lt_one_iff] at this
  omega

/-! ### The binade of a fraction -/

lemma scaleTwo_pos (hd : 0 < den) (num : Nat) (e : Int) : 0 < (scaleTwo num den e).2 := by
  rw [scaleTwo]
  split <;> positivity

lemma cast_pow_toNat (b : Nat) {e : Int} (h : 0 ≤ e) : ((b ^ e.toNat : ℕ) : ℚ) = (b : ℚ) ^ e := by
  rw [Nat.cast_pow, ← zpow_natCast, Int.toNat_of_nonneg h]

lemma scaleTwo_div (num den : Nat) (e : Int) :
    ((scaleTwo num den e).1 : ℚ) / (scaleTwo num den e).2 = num / den / 2 ^ e := by
  rw [scaleTwo]
  split
  case isTrue h => rw [Nat.cast_mul, cast_pow_toNat 2 h, div_mul_eq_div_div, Nat.cast_ofNat]
  case isFalse h =>
    rw [Nat.cast_mul, cast_pow_toNat 2 (by omega), zpow_neg, div_div, div_eq_mul_inv,
      div_eq_mul_inv, mul_inv, mul_assoc, mul_comm (den : ℚ)⁻¹, Nat.cast_ofNat]

lemma scaleTwo_mul (num den k : Nat) (e : Int) :
    scaleTwo (num * k) (den * k) e = ((scaleTwo num den e).1 * k, (scaleTwo num den e).2 * k) := by
  rw [scaleTwo, scaleTwo]
  split
  · rw [Nat.mul_right_comm]
  · rw [Nat.mul_right_comm]

lemma fits_iff (hd : 0 < den) : fits num den e = true ↔ (num : ℚ) / den < 2 ^ (53 + e) := by
  have hs : (0 : ℚ) < (scaleTwo num den e).2 := by exact_mod_cast scaleTwo_pos hd num e
  have h2 : (0 : ℚ) < 2 ^ e := by positivity
  rw [fits, decide_eq_true_eq, zpow_add₀ (by norm_num), ← div_lt_iff₀ h2, ← scaleTwo_div,
    div_lt_iff₀ hs, mul_comm]
  norm_cast

lemma two_zpow_natCast (n : Nat) : (2 : ℚ) ^ (n : Int) = ((2 ^ n : ℕ) : ℚ) := by
  rw [zpow_natCast, Nat.cast_pow, Nat.cast_ofNat]

lemma two_zpow_log2_le (hn : 0 < num) (hd : 0 < den) :
    (2 : ℚ) ^ ((Nat.log2 num : Int) - Nat.log2 den - 1) ≤ num / den := by
  have hdq : (0 : ℚ) < den := by exact_mod_cast hd
  have h1 : ((2 ^ Nat.log2 num : ℕ) : ℚ) ≤ num := by exact_mod_cast Nat.log2_self_le hn.ne'
  have h2 : (den : ℚ) ≤ ((2 ^ (Nat.log2 den + 1) : ℕ) : ℚ) := by
    exact_mod_cast (@Nat.lt_log2_self den).le
  rw [sub_sub, zpow_sub₀ (by norm_num), two_zpow_natCast,
    show (Nat.log2 den : Int) + 1 = ((Nat.log2 den + 1 : ℕ) : Int) by push_cast; rfl,
    two_zpow_natCast]
  exact div_le_div₀ (by positivity) h1 hdq h2

lemma lt_two_zpow_log2 (hd : 0 < den) :
    (num : ℚ) / den < 2 ^ ((Nat.log2 num : Int) - Nat.log2 den + 1) := by
  have h1 : (num : ℚ) < ((2 ^ (Nat.log2 num + 1) : ℕ) : ℚ) := by
    exact_mod_cast (@Nat.lt_log2_self num)
  have h2 : ((2 ^ Nat.log2 den : ℕ) : ℚ) ≤ den := by exact_mod_cast Nat.log2_self_le hd.ne'
  rw [sub_add_eq_add_sub, zpow_sub₀ (by norm_num), two_zpow_natCast,
    show (Nat.log2 num : Int) + 1 = ((Nat.log2 num + 1 : ℕ) : Int) by push_cast; rfl,
    two_zpow_natCast]
  exact div_lt_div₀ h1 h2 (by positivity) (by positivity)

lemma leastScale_spec (hn : 0 < num) (hd : 0 < den) :
    (num : ℚ) / den < 2 ^ (53 + leastScale num den) ∧
      2 ^ (52 + leastScale num den) ≤ (num : ℚ) / den := by
  rw [leastScale]
  split
  case isTrue h =>
    refine ⟨(fits_iff hd).mp h, le_of_eq_of_le ?_ (two_zpow_log2_le hn hd)⟩
    congr 1
    ring
  case isFalse h =>
    have hfit : fits num den ((Nat.log2 num : Int) - Nat.log2 den - 53 + 1) = true := by
      rw [fits_iff hd]
      refine lt_of_lt_of_eq (lt_two_zpow_log2 hd) ?_
      congr 1
      ring
    rw [if_pos hfit]
    refine ⟨(fits_iff hd).mp hfit, ?_⟩
    rw [fits_iff hd, not_lt] at h
    refine le_of_eq_of_le ?_ h
    congr 1
    ring

/-- The scale of the double nearest to a positive number: the one that leaves 53 binary digits, but
not below that of the least double. -/
structure IsScale (q : ℚ) (e : Int) : Prop where
  lt : q < 2 ^ (53 + e)
  least : -1074 ≤ e
  le : e = -1074 ∨ 2 ^ (52 + e) ≤ q

lemma IsScale.le_of_isScale {e e' : Int} (h : IsScale q e) (h' : IsScale q e') : e' ≤ e := by
  obtain he | he := h'.le
  · exact he ▸ h.least
  · have := (zpow_lt_zpow_iff_right₀ (by norm_num : (1 : ℚ) < 2)).mp (he.trans_lt h.lt)
    omega

lemma IsScale.unique {e e' : Int} (h : IsScale q e) (h' : IsScale q e') : e = e' :=
  le_antisymm (h'.le_of_isScale h) (h.le_of_isScale h')

lemma isScale_scaleOf (hn : 0 < num) (hd : 0 < den) :
    IsScale ((num : ℚ) / den) (scaleOf num den) := by
  obtain ⟨lt, le⟩ := leastScale_spec hn hd
  rw [scaleOf, Int.max_def]
  split
  case isTrue h =>
    refine ⟨lt.trans_le (zpow_le_zpow_right₀ (by norm_num) (by omega)), le_refl _, .inl rfl⟩
  case isFalse h => exact ⟨lt, by omega, .inr le⟩

lemma ofRatio_eq (hn : 0 < num) (hd : 0 < den) (h : IsScale ((num : ℚ) / den) e) :
    ofRatio negative num den =
      assemble negative (roundDiv (scaleTwo num den e).1 (scaleTwo num den e).2) e := by
  rw [h.unique (isScale_scaleOf hn hd), ofRatio, if_neg hn.ne']

lemma ofRatio_zero (den : Nat) : ofRatio negative 0 den = assemble negative 0 (-1074) := by
  rw [ofRatio, if_pos rfl]

lemma ofRatio_mul_right (hk : 0 < k) (hd : 0 < den) (num : Nat) :
    ofRatio negative (num * k) (den * k) = ofRatio negative num den := by
  rcases Nat.eq_zero_or_pos num with rfl | hn
  · rw [Nat.zero_mul, ofRatio_zero, ofRatio_zero]
  · have hq : ((num * k : ℕ) : ℚ) / (den * k : ℕ) = num / den := by
      have : (k : ℚ) ≠ 0 := by exact_mod_cast hk.ne'
      rw [Nat.cast_mul, Nat.cast_mul, mul_div_mul_right _ _ this]
    have hs := isScale_scaleOf hn hd
    rw [ofRatio_eq hn hd hs, ofRatio_eq (by positivity) (by positivity) (hq.symm ▸ hs),
      scaleTwo_mul, roundDiv_mul_right hk]

lemma ofRatio_congr {num' den' : Nat} (hd : 0 < den) (hd' : 0 < den')
    (h : num * den' = num' * den) : ofRatio negative num den = ofRatio negative num' den' := by
  rw [← ofRatio_mul_right hd' hd, ← ofRatio_mul_right hd hd', h, Nat.mul_comm den]

lemma roundDiv_scaleTwo_eq (hd : 0 < den) (h : |(num : ℚ) / den - m * 2 ^ e| < 2 ^ e / 2) :
    roundDiv (scaleTwo num den e).1 (scaleTwo num den e).2 = m := by
  have h2 : (0 : ℚ) < 2 ^ e := by positivity
  apply roundDiv_eq_of_abs_lt (scaleTwo_pos hd num e)
  have key : (num : ℚ) / den / 2 ^ e - m = (num / den - m * 2 ^ e) / 2 ^ e := by
    rw [sub_div, mul_div_cancel_right₀ _ h2.ne']
  rw [scaleTwo_div, key, abs_div, abs_of_pos h2, div_lt_iff₀ h2]
  linarith

lemma assemble_carry (negative : Bool) (e : Int) :
    assemble negative (2 ^ 53) (e - 1) = assemble negative (2 ^ 52) e := by
  simp only [assemble, if_true, sub_add_cancel, if_neg (by decide : ¬ (2 ^ 52 : ℕ) = 2 ^ 53)]

/-- A fraction near to a double gives it back. Below a power of two the doubles are half as far
apart as above it. -/
lemma ofRatio_of_near (hn : 0 < num) (hd : 0 < den) (hm : m < 2 ^ 53) (he : -1074 ≤ e)
    (normal : e = -1074 ∨ 2 ^ 52 ≤ m) (near : |(num : ℚ) / den - m * 2 ^ e| < 2 ^ e / 2)
    (low : m = 2 ^ 52 → |(num : ℚ) / den - m * 2 ^ e| < 2 ^ e / 4) :
    ofRatio negative num den = assemble negative m e := by
  have h2 : (0 : ℚ) < 2 ^ e := by positivity
  have hm' : (m : ℚ) + 1 ≤ 2 ^ 53 := by exact_mod_cast hm
  obtain ⟨below, above⟩ := abs_lt.mp near
  by_cases hle : e = -1074 ∨ (2 : ℚ) ^ (52 + e) ≤ num / den
  · have scale : IsScale ((num : ℚ) / den) e := by
      refine ⟨?_, he, hle⟩
      rw [zpow_add₀ (by norm_num)]
      have := mul_le_mul_of_nonneg_right hm' h2.le
      linarith
    rw [ofRatio_eq hn hd scale, roundDiv_scaleTwo_eq hd near]
  · -- the fraction lies below the power of two that the double is
    obtain ⟨hne, hlt⟩ := not_or.mp hle
    rw [zpow_add₀ (by norm_num)] at hlt
    have hm52 : m = 2 ^ 52 := by
      have : (m : ℚ) < 2 ^ 52 + 1 := by
        by_contra h
        have := mul_le_mul_of_nonneg_right (not_lt.mp h) h2.le
        linarith
      have : m < 2 ^ 52 + 1 := by exact_mod_cast this
      omega
    have half : (2 : ℚ) ^ (e - 1) = 2 ^ e / 2 := by rw [zpow_sub₀ (by norm_num), zpow_one]
    have near' : |(num : ℚ) / den - (2 ^ 53 : ℕ) * 2 ^ (e - 1)| < 2 ^ (e - 1) / 2 := by
      have := low hm52
      rw [hm52] at this
      rw [half]
      convert this using 1
      · congr 2
        ring
      · ring
    have scale : IsScale ((num : ℚ) / den) (e - 1) := by
      refine ⟨?_, by omega, .inr ?_⟩
      · rw [zpow_add₀ (by norm_num)]
        linarith
      · rw [zpow_add₀ (by norm_num)]
        rw [hm52] at below
        linarith
    rw [ofRatio_eq hn hd scale, roundDiv_scaleTwo_eq hd near', assemble_carry, hm52]

/-! ### The bits of a double -/

lemma toBits_ofBits {b : UInt64} (h : b.toNat / 2 ^ 52 % 2048 ≠ 2047) :
    (Float.ofBits b).toBits = b := by
  have valid : Float.Model.Format.binary64.Valid b.toBitVec := by
    refine ⟨fun hexp _ => absurd ?_ h⟩
    have := congrArg BitVec.toNat hexp
    simp only [Float.Model.UnpackedFloat.unpackExponent, BitVec.toNat_cast,
      BitVec.extractLsb_toNat] at this
    simpa [Nat.shiftRight_eq_div_pow] using this
  exact congrArg Float.toBits (Float.ofBits_toBits ⟨⟨b, valid⟩⟩)

/-- The parts of a finite double: a whole number below the bound of a significand, at a scale that
leaves all its digits or is the least one. -/
structure IsFinite (m : Nat) (e : Int) : Prop where
  lt : m < 2 ^ 53
  least : -1074 ≤ e
  most : e ≤ 971
  normal : e = -1074 ∨ 2 ^ 52 ≤ m

def magnitude (m : Nat) (e : Int) : Nat :=
  if m < 2 ^ 52 then m else (e + 1075).toNat * 2 ^ 52 + (m - 2 ^ 52)

lemma IsFinite.magnitude_lt (h : IsFinite m e) : magnitude m e < 2047 * 2 ^ 52 := by
  have := h.lt
  have := h.most
  rw [magnitude]
  split <;> omega

def signed (negative : Bool) (b : Nat) : Float :=
  Float.ofBits (UInt64.ofNat ((if negative then 2 ^ 63 else 0) + b))

lemma toNat_toBits_signed (h : b < 2047 * 2 ^ 52) (negative : Bool) :
    (signed negative b).toBits.toNat = (if negative then 2 ^ 63 else 0) + b := by
  have hlt : (if negative then 2 ^ 63 else 0) + b < 2 ^ 64 := by split <;> omega
  have key : (UInt64.ofNat ((if negative then 2 ^ 63 else 0) + b)).toNat
      = (if negative then 2 ^ 63 else 0) + b := by
    rw [UInt64.toNat_ofNat', Nat.mod_eq_of_lt hlt]
  rw [signed, toBits_ofBits, key]
  rw [key]
  split <;> omega

lemma signed_inj {b' : Nat} (h : b < 2047 * 2 ^ 52) (h' : b' < 2047 * 2 ^ 52) {negative : Bool}
    (e : signed negative b = signed negative b') : b = b' := by
  have := congrArg (fun x => x.toBits.toNat) e
  simp only [toNat_toBits_signed h, toNat_toBits_signed h'] at this
  omega

lemma assemble_of_isFinite (h : IsFinite m e) (negative : Bool) :
    assemble negative m e = some (signed negative (magnitude m e)) := by
  have hm := h.lt
  have hmost := h.most
  simp only [assemble, if_neg hm.ne, magnitude, signed]
  split
  · rfl
  · rw [if_neg (by omega), Nat.add_assoc]

lemma assemble_cases (hm : m ≤ 2 ^ 53) (e : Int) :
    (∀ negative, assemble negative m e = none) ∨
      ∃ b < 2047 * 2 ^ 52, ∀ negative, assemble negative m e = some (signed negative b) := by
  obtain ⟨m', e', hlt, carried⟩ :
      ∃ m' e', m' < 2 ^ 53 ∧ ∀ negative, assemble negative m e = assemble negative m' e' := by
    obtain rfl | hlt := hm.eq_or_lt
    · refine ⟨2 ^ 52, e + 1, by decide, fun negative => ?_⟩
      rw [← assemble_carry, add_sub_cancel_right]
    · exact ⟨m, e, hlt, fun _ => rfl⟩
  simp only [carried]
  simp only [assemble, hlt.ne, if_false, signed]
  by_cases h52 : m' < 2 ^ 52
  · exact .inr ⟨m', by omega, fun _ => if_pos h52⟩
  · simp only [h52, if_false]
    by_cases hf : 2047 ≤ (e' + 1075).toNat
    · exact .inl fun _ => if_pos hf
    · refine .inr ⟨(e' + 1075).toNat * 2 ^ 52 + (m' - 2 ^ 52), by omega, fun _ => ?_⟩
      rw [if_neg hf, Nat.add_assoc]

lemma roundDiv_scaleTwo_le (hd : 0 < den) (h : IsScale ((num : ℚ) / den) e) :
    roundDiv (scaleTwo num den e).1 (scaleTwo num den e).2 ≤ 2 ^ 53 := by
  have h2 : (0 : ℚ) < 2 ^ e := by positivity
  have near := abs_sub_roundDiv_le (scaleTwo_pos hd num e) (scaleTwo num den e).1
  have hlt : (num : ℚ) / den / 2 ^ e < 2 ^ 53 := by
    rw [div_lt_iff₀ h2]
    refine lt_of_lt_of_eq h.lt ?_
    rw [zpow_add₀ (by norm_num), zpow_ofNat]
  rw [scaleTwo_div] at near
  have := (abs_le.mp near).1
  have : ((roundDiv (scaleTwo num den e).1 (scaleTwo num den e).2 : ℕ) : ℚ) < 2 ^ 53 + 1 := by
    linarith
  have : roundDiv (scaleTwo num den e).1 (scaleTwo num den e).2 < 2 ^ 53 + 1 := by
    exact_mod_cast this
  omega

lemma ofRatio_sign (hn : 0 < num) (hd : 0 < den) (hb : b < 2047 * 2 ^ 52)
    (h : ofRatio false num den = some (signed false b)) (negative : Bool) :
    ofRatio negative num den = some (signed negative b) := by
  have hs := isScale_scaleOf hn hd
  rw [ofRatio_eq hn hd hs] at h ⊢
  obtain none' | ⟨b', hb', some'⟩ := assemble_cases (roundDiv_scaleTwo_le hd hs) (scaleOf num den)
  · rw [none'] at h
    cases h
  · rw [some'] at h ⊢
    rw [signed_inj hb' hb (Option.some.inj h)]

lemma view_eq_finite {x : Float} (h : view x = .finite negative m e) :
    IsFinite m e ∧ x = signed negative (magnitude m e) := by
  have hlt : x.toBits.toNat < 2 ^ 64 := x.toBits.toNat_lt
  have key : IsFinite m e ∧
      x.toBits.toNat = (if negative then 2 ^ 63 else 0) + magnitude m e := by
    simp only [view] at h
    split at h
    · split at h <;> cases h
    · next hfield =>
      have hmod : x.toBits.toNat % 2 ^ 52 < 2 ^ 52 := Nat.mod_lt _ (by decide)
      split at h
      · next hzero =>
        cases h
        refine ⟨⟨by omega, le_refl _, by omega, .inl rfl⟩, ?_⟩
        rw [magnitude]
        simp only [decide_eq_true_eq]
        split <;> omega
      · next hpos =>
        cases h
        refine ⟨⟨by omega, by omega, by omega, .inr (by omega)⟩, ?_⟩
        rw [magnitude, if_neg (show ¬ x.toBits.toNat % 2 ^ 52 + 2 ^ 52 < 2 ^ 52 by omega)]
        simp only [decide_eq_true_eq]
        split <;> omega
  refine ⟨key.1, ?_⟩
  rw [signed, ← key.2, UInt64.ofNat_toNat, Float.ofBits_toBits]

end Binary64

end BrilKit
