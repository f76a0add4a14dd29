import BrilKit.Proofs.Data.Binary64
import BrilKit.Proofs.Data.Digits

/-!
# The shortest digits of a double

Seventeen significant digits tell a double from its neighbours. So the search for the fewest digits
that read back always ends with such digits, and every way of writing them down reads back as the
double.
-/

namespace BrilKit

open List

namespace Decimal

open Binary64

variable {num den mant digits n : Nat} {exp top k : Int} {negative : Bool}

/-! ### Fractions of whole numbers -/

lemma scaleTen_pos (hd : 0 < den) (num : Nat) (k : Int) : 0 < (scaleTen num den k).2 := by
  rw [scaleTen]
  split <;> positivity

lemma scaleTen_div (num den : Nat) (k : Int) :
    ((scaleTen num den k).1 : ℚ) / (scaleTen num den k).2 = num / den * 10 ^ k := by
  rw [scaleTen]
  split
  case isTrue h => rw [Nat.cast_mul, cast_pow_toNat 10 h, div_mul_eq_mul_div, Nat.cast_ofNat]
  case isFalse h =>
    rw [Nat.cast_mul, cast_pow_toNat 10 (by omega), zpow_neg, div_mul_eq_div_div, div_inv_eq_mul,
      Nat.cast_ofNat]

lemma fraction_pos (mant : Nat) (exp : Int) : 0 < (fraction mant exp).2 := by
  rw [fraction]
  split <;> positivity

lemma fraction_num_pos (h : 0 < mant) (exp : Int) : 0 < (fraction mant exp).1 := by
  rw [fraction]
  split <;> positivity

lemma fraction_div (mant : Nat) (exp : Int) :
    ((fraction mant exp).1 : ℚ) / (fraction mant exp).2 = mant * 2 ^ exp := by
  rw [fraction]
  split
  case isTrue h => rw [Nat.cast_mul, cast_pow_toNat 2 h, Nat.cast_one, div_one, Nat.cast_ofNat]
  case isFalse h => rw [cast_pow_toNat 2 (by omega), zpow_neg, div_inv_eq_mul, Nat.cast_ofNat]

/-! ### The leading power of ten -/

lemma ten_zpow_le_of_pow_le {a b : Int} {p q : Nat} (hp : p ≠ 0) (h : (q : Int) * a ≤ p * b)
    (bound : ((10 : ℚ) ^ p) ^ a ≤ ((2 : ℚ) ^ q) ^ a) : (10 : ℚ) ^ a ≤ 2 ^ b := by
  have key : ((10 : ℚ) ^ a) ^ p ≤ (2 ^ b) ^ p :=
    calc ((10 : ℚ) ^ a) ^ p = ((10 : ℚ) ^ p) ^ a := by
          rw [← zpow_natCast, ← zpow_natCast, zpow_comm]
      _ ≤ ((2 : ℚ) ^ q) ^ a := bound
      _ = (2 : ℚ) ^ (q * a) := by rw [← zpow_natCast, ← zpow_mul]
      _ ≤ 2 ^ (p * b) := zpow_le_zpow_right₀ (by norm_num) h
      _ = (2 ^ b) ^ p := by rw [mul_comm, zpow_mul, zpow_natCast]
  exact le_of_pow_le_pow_left₀ hp (by positivity) key

/-- A power of ten is below a power of two when its exponent is small enough; `59 / 196` is below
the logarithm of two and `28 / 93` above it. -/
lemma ten_zpow_le_two_zpow {a b : Int} (h : 196 * a ≤ 59 * b) (h' : 93 * a ≤ 28 * b) :
    (10 : ℚ) ^ a ≤ 2 ^ b := by
  rcases le_total 0 a with ha | ha
  · exact ten_zpow_le_of_pow_le (by norm_num : 59 ≠ 0) h
      (zpow_le_zpow_left₀ ha (by norm_num) (by norm_num))
  · refine ten_zpow_le_of_pow_le (by norm_num : 28 ≠ 0) h' ?_
    rw [← neg_neg a, zpow_neg, zpow_neg _ (-a)]
    exact inv_anti₀ (by positivity) (zpow_le_zpow_left₀ (by omega) (by norm_num) (by norm_num))

lemma exponentFrom_succ (num den fuel : Nat) (k : Int) :
    exponentFrom num den (fuel + 1) k =
      if (scaleTen num den (-(k + 1))).1 < (scaleTen num den (-(k + 1))).2 then k
      else exponentFrom num den fuel (k + 1) := by
  rcases h : scaleTen num den (-(k + 1)) with ⟨n, d⟩
  simp only [exponentFrom, h]

lemma exponentFrom_spec (hd : 0 < den) (fuel : Nat) {k : Int} (h : (10 : ℚ) ^ k ≤ num / den) :
    k ≤ exponentFrom num den fuel k ∧ (10 : ℚ) ^ exponentFrom num den fuel k ≤ num / den := by
  induction fuel generalizing k with
  | zero => exact ⟨le_refl _, h⟩
  | succ fuel ih =>
    rw [exponentFrom_succ]
    split
    · exact ⟨le_refl _, h⟩
    · next hlt =>
      have hs : (0 : ℚ) < (scaleTen num den (-(k + 1))).2 := by exact_mod_cast scaleTen_pos hd _ _
      have hle : (1 : ℚ) ≤ (scaleTen num den (-(k + 1))).1 / (scaleTen num den (-(k + 1))).2 := by
        rw [one_le_div hs]
        exact_mod_cast Nat.le_of_not_lt hlt
      rw [scaleTen_div, zpow_neg, ← div_eq_mul_inv, one_le_div (by positivity)] at hle
      obtain ⟨up, low⟩ := ih hle
      exact ⟨by omega, low⟩

lemma exponent_spec (hn : 0 < num) (hd : 0 < den)
    (hlow : -1100 ≤ (Nat.log2 num : Int) - Nat.log2 den)
    (hhigh : (Nat.log2 num : Int) - Nat.log2 den ≤ 1100) :
    -340 ≤ exponent num den ∧ (10 : ℚ) ^ exponent num den ≤ num / den := by
  have start : (10 : ℚ) ^ (((Nat.log2 num : Int) - Nat.log2 den) * 30103 / 100000 - 2)
      ≤ num / den :=
    le_trans (ten_zpow_le_two_zpow (by omega) (by omega)) (two_zpow_log2_le hn hd)
  obtain ⟨up, low⟩ := exponentFrom_spec hd 6 start
  exact ⟨le_trans (by omega) up, low⟩

lemma log2_fraction (h : IsFinite mant exp) (hm : 0 < mant) :
    -1100 ≤ (Nat.log2 (fraction mant exp).1 : Int) - Nat.log2 (fraction mant exp).2 ∧
      (Nat.log2 (fraction mant exp).1 : Int) - Nat.log2 (fraction mant exp).2 ≤ 1100 := by
  have hlt := h.lt
  have hleast := h.least
  have hmost := h.most
  rw [fraction]
  split
  case isTrue he =>
    have hnum : mant * 2 ^ exp.toNat < 2 ^ (53 + exp.toNat) := by
      rw [Nat.pow_add]
      exact Nat.mul_lt_mul_of_pos_right hlt (by positivity)
    have hlog := (Nat.log2_lt (Nat.mul_pos hm (by positivity)).ne').mpr hnum
    simp only [show Nat.log2 1 = 0 by decide]
    omega
  case isFalse he =>
    have hlog := (Nat.log2_lt hm.ne').mpr hlt
    simp only [Nat.log2_two_pow]
    omega

/-! ### Digits that read back -/

lemma readsBack_iff (mant : Nat) (exp : Int) (digits : Nat) (k : Int) (h : IsFinite mant exp) :
    readsBack mant exp digits k = true ↔
      ofRatio false (scaleTen digits 1 k).1 (scaleTen digits 1 k).2 =
        some (signed false (magnitude mant exp)) := by
  rcases hs : scaleTen digits 1 k with ⟨n, d⟩
  simp only [readsBack, hs, assemble_of_isFinite h]
  cases ofRatio false n d with
  | none => simp
  | some x => simp [Float.toBits_inj]

lemma gridQuotient_eq (mant : Nat) (exp k : Int) :
    gridQuotient mant exp k = scaleTen (fraction mant exp).1 (fraction mant exp).2 (-k) := rfl

lemma gridQuotient_pos (mant : Nat) (exp k : Int) : 0 < (gridQuotient mant exp k).2 :=
  scaleTen_pos (fraction_pos mant exp) _ _

lemma gridQuotient_div (mant : Nat) (exp k : Int) :
    ((gridQuotient mant exp k).1 : ℚ) / (gridQuotient mant exp k).2 = mant * 2 ^ exp / 10 ^ k := by
  rw [gridQuotient_eq, scaleTen_div, fraction_div, zpow_neg, ← div_eq_mul_inv]

lemma roundDiv_eq_or (a b : Nat) : roundDiv a b = a / b ∨ roundDiv a b = a / b + 1 := by
  simp only [roundDiv]
  split
  · exact .inl rfl
  · split
    · exact .inr rfl
    · split
      · exact .inl rfl
      · exact .inr rfl

lemma mem_neighbours {d : Nat} (h : d ∈ neighbours mant exp k) :
    d = (gridQuotient mant exp k).1 / (gridQuotient mant exp k).2 ∨
      d = (gridQuotient mant exp k).1 / (gridQuotient mant exp k).2 + 1 := by
  rcases hg : gridQuotient mant exp k with ⟨a, b⟩
  simp only [neighbours, hg, mem_cons, not_mem_nil, or_false] at h
  obtain rfl | rfl := h
  · exact roundDiv_eq_or a b
  · split
    · exact .inr rfl
    · exact .inl rfl

lemma roundDiv_mem_neighbours (mant : Nat) (exp k : Int) :
    roundDiv (gridQuotient mant exp k).1 (gridQuotient mant exp k).2 ∈ neighbours mant exp k := by
  rcases hg : gridQuotient mant exp k with ⟨a, b⟩
  simp only [neighbours, hg]
  exact mem_cons_self

/-- The neighbours of a number on a decimal grid that it is not below the first step of. -/
lemma neighbour_bounds {d : Nat} (h : d ∈ neighbours mant exp k) (hk : k ≤ top)
    (htop : (10 : ℚ) ^ top ≤ mant * 2 ^ exp) :
    (10 : ℚ) ^ top ≤ d * 10 ^ k ∧ (d : ℚ) * 10 ^ k ≤ 2 * (mant * 2 ^ exp) := by
  have hk0 : (0 : ℚ) < 10 ^ k := by positivity
  have hb := gridQuotient_pos mant exp k
  have hbq : (0 : ℚ) < (gridQuotient mant exp k).2 := by exact_mod_cast hb
  have hdiv := gridQuotient_div mant exp k
  -- the grid has all multiples of its step, so the power of ten is on it
  have hgrid : ((10 ^ (top - k).toNat : ℕ) : ℚ) ≤ mant * 2 ^ exp / 10 ^ k := by
    rw [cast_pow_toNat 10 (by omega), Nat.cast_ofNat, zpow_sub₀ (by norm_num)]
    gcongr
  have hlow : 10 ^ (top - k).toNat ≤
      (gridQuotient mant exp k).1 / (gridQuotient mant exp k).2 := by
    rw [Nat.le_div_iff_mul_le hb]
    rw [← hdiv, le_div_iff₀ hbq] at hgrid
    exact_mod_cast hgrid
  have hfloor : (((gridQuotient mant exp k).1 / (gridQuotient mant exp k).2 : ℕ) : ℚ) ≤
      mant * 2 ^ exp / 10 ^ k := hdiv ▸ Nat.cast_div_le
  have hd : 10 ^ (top - k).toNat ≤ d ∧
      d ≤ (gridQuotient mant exp k).1 / (gridQuotient mant exp k).2 + 1 := by
    have := mem_neighbours h
    omega
  constructor
  · calc (10 : ℚ) ^ top = ((10 ^ (top - k).toNat : ℕ) : ℚ) * 10 ^ k := by
          rw [cast_pow_toNat 10 (by omega), Nat.cast_ofNat, ← zpow_add₀ (by norm_num),
            sub_add_cancel]
      _ ≤ d * 10 ^ k := by
          gcongr
          exact_mod_cast hd.1
  · have hd' : (d : ℚ) ≤ mant * 2 ^ exp / 10 ^ k + 1 := by
      have : (d : ℚ) ≤
          (((gridQuotient mant exp k).1 / (gridQuotient mant exp k).2 : ℕ) : ℚ) + 1 := by
        exact_mod_cast hd.2
      linarith
    have hstep : (10 : ℚ) ^ k ≤ 10 ^ top := zpow_le_zpow_right₀ (by norm_num) hk
    calc (d : ℚ) * 10 ^ k ≤ (mant * 2 ^ exp / 10 ^ k + 1) * 10 ^ k := by gcongr
      _ = mant * 2 ^ exp + 10 ^ k := by rw [add_mul, div_mul_cancel₀ _ hk0.ne', one_mul]
      _ ≤ 2 * (mant * 2 ^ exp) := by linarith

lemma abs_nearer_sub_le (mant : Nat) (exp k : Int) :
    |(roundDiv (gridQuotient mant exp k).1 (gridQuotient mant exp k).2 : ℚ) * 10 ^ k
      - mant * 2 ^ exp| ≤ 10 ^ k / 2 := by
  have hk : (0 : ℚ) < 10 ^ k := by positivity
  have h := abs_sub_roundDiv_le (gridQuotient_pos mant exp k) (gridQuotient mant exp k).1
  have h' := mul_le_mul_of_nonneg_right h hk.le
  rw [gridQuotient_div, ← abs_of_pos hk, ← abs_mul, abs_of_pos hk, sub_mul,
    div_mul_cancel₀ _ hk.ne', abs_sub_comm] at h'
  linarith

lemma scaleTen_one_div (digits : Nat) (k : Int) :
    ((scaleTen digits 1 k).1 : ℚ) / (scaleTen digits 1 k).2 = digits * 10 ^ k := by
  rw [scaleTen_div, Nat.cast_one, div_one]

lemma scaleTen_num_pos (h : 0 < digits) (k : Int) : 0 < (scaleTen digits 1 k).1 := by
  rw [scaleTen]
  split <;> positivity

lemma readsBack_of_near (hf : IsFinite mant exp) (hd : 0 < digits)
    (near : |(digits : ℚ) * 10 ^ k - mant * 2 ^ exp| ≤ mant * 2 ^ exp / (2 * 10 ^ 16)) :
    readsBack mant exp digits k = true := by
  have h2 : (0 : ℚ) < 2 ^ exp := by positivity
  have hlt : (mant : ℚ) * 2 ^ exp < 2 ^ 53 * 2 ^ exp := by
    gcongr
    exact_mod_cast hf.lt
  rw [readsBack_iff _ _ _ _ hf, ← assemble_of_isFinite hf]
  apply ofRatio_of_near (scaleTen_num_pos hd k) (scaleTen_pos (by decide) _ _) hf.lt hf.least
    hf.normal
  · rw [scaleTen_one_div]
    refine near.trans_lt ?_
    rw [div_lt_iff₀ (by positivity)]
    linarith
  · intro h52
    rw [scaleTen_one_div]
    refine near.trans_lt ?_
    rw [h52, div_lt_iff₀ (by positivity)]
    push_cast
    linarith

lemma candidates_seventeen (hf : IsFinite mant exp)
    (htop : (10 : ℚ) ^ top ≤ mant * 2 ^ exp) : candidates mant exp top 17 ≠ [] := by
  obtain ⟨k, hk⟩ : ∃ k, k = top - (17 : ℕ) + 1 := ⟨_, rfl⟩
  have mem := roundDiv_mem_neighbours mant exp k
  have step : (10 : ℚ) ^ k * 10 ^ 16 ≤ mant * 2 ^ exp := by
    rw [← zpow_natCast, ← zpow_add₀ (by norm_num)]
    refine le_of_eq_of_le ?_ htop
    congr 1
    rw [hk]
    omega
  have pos : 0 < roundDiv (gridQuotient mant exp k).1 (gridQuotient mant exp k).2 := by
    have low := (neighbour_bounds mem (by omega) htop).1
    have : (0 : ℚ) < 10 ^ top := by positivity
    by_contra h
    rw [Nat.eq_zero_of_not_pos h] at low
    simp only [Nat.cast_zero, zero_mul] at low
    linarith
  have reads : readsBack mant exp
      (roundDiv (gridQuotient mant exp k).1 (gridQuotient mant exp k).2) k = true := by
    refine readsBack_of_near hf pos ((abs_nearer_sub_le mant exp k).trans ?_)
    rw [le_div_iff₀ (by positivity)]
    linarith
  rw [hk] at mem reads
  exact ne_nil_of_mem (mem_filter.mpr ⟨mem_map.mpr ⟨_, mem, rfl⟩, reads⟩)

/-! ### The search for the fewest digits -/

lemma shortestFrom_mem (h : candidates mant exp top 17 ≠ []) (fuel : Nat) (hn : 0 < n)
    (hfuel : n + fuel = 17) :
    ∃ n', 0 < n' ∧ shortestFrom mant exp top (fuel + 1) n ∈ candidates mant exp top n' := by
  induction fuel generalizing n with
  | zero =>
    obtain rfl : n = 17 := hfuel
    refine ⟨17, hn, ?_⟩
    rw [shortestFrom]
    cases hc : candidates mant exp top 17 with
    | nil => exact absurd hc h
    | cons c cs => exact mem_cons_self
  | succ fuel ih =>
    rw [shortestFrom]
    cases hc : candidates mant exp top n with
    | nil => exact ih (Nat.succ_pos n) (by omega)
    | cons c cs => exact ⟨n, hn, by rw [hc]; exact mem_cons_self⟩

lemma stripZeros_value (fuel digits : Nat) (k : Int) :
    ((stripZeros fuel digits k).1 : ℚ) * 10 ^ (stripZeros fuel digits k).2 = digits * 10 ^ k := by
  induction fuel generalizing digits k with
  | zero => rfl
  | succ fuel ih =>
    rw [stripZeros]
    split
    · next h =>
      rw [ih, zpow_add₀ (by norm_num), zpow_one]
      have : digits = digits / 10 * 10 := by omega
      conv_rhs => rw [this]
      push_cast
      ring
    · rfl

lemma two_zpow_le_ten_zpow : (2 : ℚ) ^ (1025 : Int) ≤ 10 ^ (316 : Int) :=
  calc (2 : ℚ) ^ (1025 : Int) ≤ 2 ^ ((13 : Int) * 79) :=
        zpow_le_zpow_right₀ (by norm_num) (by norm_num)
    _ = (2 ^ (13 : Int)) ^ (79 : Int) := zpow_mul _ _ _
    _ ≤ (10 ^ (4 : Int)) ^ (79 : Int) :=
        zpow_le_zpow_left₀ (by norm_num) (by norm_num) (by norm_num)
    _ = 10 ^ ((4 : Int) * 79) := (zpow_mul _ _ _).symm
    _ = 10 ^ (316 : Int) := by norm_num only

/-- A number that the digits of a double denote: it is in the range of the doubles, and reads back
as the double. -/
structure Denotes (v : ℚ) (mant : Nat) (exp : Int) : Prop where
  low : (10 : ℚ) ^ (-340 : Int) ≤ v
  high : v ≤ 10 ^ (316 : Int)
  reads : ∀ n d : Nat, 0 < d → (n : ℚ) / d = v →
    ofRatio false n d = some (signed false (magnitude mant exp))

lemma shortest_eq (mant : Nat) (exp : Int) :
    shortest mant exp =
      let top := exponent (fraction mant exp).1 (fraction mant exp).2
      stripZeros 20 (shortestFrom mant exp top 17 1).1 (shortestFrom mant exp top 17 1).2 := by
  rcases h : fraction mant exp with ⟨num, den⟩
  rcases h' : shortestFrom mant exp (exponent num den) 17 1 with ⟨d, k⟩
  simp only [shortest, h]

/-- What the fewest digits of a double denote reads back as the double. -/
lemma shortest_denotes (hf : IsFinite mant exp) (hm : 0 < mant) :
    Denotes ((shortest mant exp).1 * 10 ^ (shortest mant exp).2) mant exp := by
  have hlog := log2_fraction hf hm
  obtain ⟨hmin, htop⟩ := exponent_spec (fraction_num_pos hm exp) (fraction_pos mant exp)
    hlog.1 hlog.2
  rw [fraction_div] at htop
  obtain ⟨n, hn, mem⟩ := shortestFrom_mem (candidates_seventeen hf htop) 16 Nat.one_pos rfl
  rw [shortest_eq, stripZeros_value]
  generalize exponent (fraction mant exp).1 (fraction mant exp).2 = top at *
  generalize shortestFrom mant exp top 17 1 = c at *
  obtain ⟨hmap, reads⟩ := mem_filter.mp mem
  obtain ⟨d, hd, rfl⟩ := mem_map.mp hmap
  obtain ⟨low, high⟩ := neighbour_bounds hd (by omega) htop
  constructor
  · exact (zpow_le_zpow_right₀ (by norm_num) hmin).trans low
  · refine high.trans (le_trans ?_ two_zpow_le_ten_zpow)
    have hlt : (mant : ℚ) ≤ 2 ^ 53 := by exact_mod_cast hf.lt.le
    have hexp : (2 : ℚ) ^ exp ≤ 2 ^ (971 : Int) := zpow_le_zpow_right₀ (by norm_num) hf.most
    calc 2 * ((mant : ℚ) * 2 ^ exp) ≤ 2 * (2 ^ 53 * 2 ^ (971 : Int)) := by gcongr
      _ = 2 ^ ((1 : Int) + 53 + 971) := by
          rw [zpow_add₀ (by norm_num), zpow_add₀ (by norm_num), zpow_one, mul_assoc]
          rfl
      _ = 2 ^ (1025 : Int) := by norm_num only
  · intro n' d' hd' value
    rw [← (readsBack_iff _ _ _ _ hf).mp reads]
    have hs := scaleTen_pos Nat.one_pos d (top - n + 1)
    apply ofRatio_congr hd' hs
    rw [← scaleTen_one_div, div_eq_div_iff (by exact_mod_cast hd'.ne') (by exact_mod_cast hs.ne')]
      at value
    exact_mod_cast value

/-- Whatever way the digits of a double are written, they read back as the double. -/
lemma Denotes.toFloat_eq {x : Float} (h : view x = .finite negative mant exp)
    (dn : Denotes ((digits : ℚ) * 10 ^ k) mant exp) : toFloat negative digits k = x := by
  obtain ⟨hf, hx⟩ := view_eq_finite h
  have hpos : 0 < digits := by
    rcases Nat.eq_zero_or_pos digits with rfl | hpos
    · have hlow := dn.low
      have : (0 : ℚ) < 10 ^ (-340 : Int) := by positivity
      simp only [Nat.cast_zero, zero_mul] at hlow
      linarith
    · exact hpos
  have hpow : ∀ j : Nat, ((10 ^ j : ℕ) : ℚ) * 10 ^ k = 10 ^ ((j : Int) + k) := by
    intro j
    rw [Nat.cast_pow, Nat.cast_ofNat, ← zpow_natCast, ← zpow_add₀ (by norm_num)]
  have hsmall : ¬ ((digitsOf digits).length : Int) + k < -400 := by
    have hlt : (digits : ℚ) * 10 ^ k < 10 ^ (((digitsOf digits).length : Int) + k) := by
      rw [← hpow]
      gcongr
      exact_mod_cast lt_pow_length_digitsOf digits
    have := (zpow_lt_zpow_iff_right₀ (by norm_num : (1 : ℚ) < 10)).mp (dn.low.trans_lt hlt)
    omega
  have hlarge : ¬ 400 < ((digitsOf digits).length : Int) + k := by
    have hle : (10 : ℚ) ^ ((((digitsOf digits).length - 1 : ℕ) : Int) + k) ≤ digits * 10 ^ k := by
      rw [← hpow]
      gcongr
      exact_mod_cast pow_length_digitsOf_le hpos
    have := (zpow_le_zpow_iff_right₀ (by norm_num : (1 : ℚ) < 10)).mp (hle.trans dn.high)
    omega
  rcases hs : scaleTen digits 1 k with ⟨n, d⟩
  have hn : 0 < n := by simpa only [hs] using scaleTen_num_pos hpos k
  have hd : 0 < d := by simpa only [hs] using scaleTen_pos Nat.one_pos digits k
  have value : (n : ℚ) / d = digits * 10 ^ k := by simpa only [hs] using scaleTen_one_div digits k
  have hratio := ofRatio_sign hn hd hf.magnitude_lt (dn.reads n d hd value) negative
  simp only [toFloat, hs, hpos.ne', hsmall, hlarge, or_self, if_false, hratio, Option.getD_some, hx]

end Decimal

end BrilKit
