import Mathlib.Algebra.Order.Field.Power
import Mathlib.Algebra.Order.Ring.Unbundled.Rat
import Mathlib.Data.Int.Log
import Mathlib.Data.Rat.Floor
import Mathlib.Tactic.FieldSimp
import Mathlib.Tactic.Linarith
import Mathlib.Tactic.NormNum
import Mathlib.Tactic.Positivity
import Mathlib.Tactic.Ring
import SuiteView.Decimal.Double

/-!
# Rounding to a double

A positive ratio has one exponent at which it is a mantissa of 53 bits, or of fewer with the least
exponent. What a ratio is rounded to depends on its value alone, has its one form, and is the double
whose half gap the value lies in.
-/

namespace SuiteView.Double

/-- A double in its one form: with 53 bits, or with the least exponent. -/
def IsCanonical : Double → Prop
  | .finite _ mantissa exponent => minExponent ≤ exponent ∧ exponent ≤ maxExponent ∧
      mantissa < mantissaLimit ∧ (mantissaLimit / 2 ≤ mantissa ∨ exponent = minExponent)
  | .infinite _ | .nan => True

/-! ### Scaling -/

variable {base num den : Nat} {e : Int}

theorem scale_den_pos (hbase : 0 < base) (hden : 0 < den) : 0 < (scale base num den e).2 := by
  have hpow (n : Nat) : 0 < Nat.pow base n := Nat.pow_pos hbase
  unfold scale
  split
  · exact Nat.mul_pos hden (hpow _)
  · exact hden

theorem scale_value (hbase : 0 < base) :
    ((scale base num den e).1 : ℚ) / (scale base num den e).2 = num / den / (base : ℚ) ^ e := by
  have hb : (base : ℚ) ≠ 0 := by exact_mod_cast hbase.ne'
  unfold scale
  split
  next h =>
    obtain ⟨n, rfl⟩ := Int.eq_ofNat_of_zero_le h
    simp only [Int.toNat_natCast, Nat.pow_eq, Nat.cast_mul, Nat.cast_pow, zpow_natCast]
    rw [div_div]
  next h =>
    obtain ⟨n, hn⟩ := Int.eq_ofNat_of_zero_le (show 0 ≤ -e by omega)
    have he : e = -(n : Int) := by omega
    simp only [he, neg_neg, Int.toNat_natCast, Nat.pow_eq, Nat.cast_mul, Nat.cast_pow,
      zpow_neg, zpow_natCast]
    field_simp

/-! ### The exponent of a ratio -/

/-- The exponent at which a ratio is a mantissa of 53 bits, or of fewer with the least exponent. -/
structure Fits (r : ℚ) (e : Int) : Prop where
  least : minExponent ≤ e
  above : r < mantissaLimit * 2 ^ e
  below : minExponent < e → (mantissaLimit / 2 : Nat) * 2 ^ e ≤ r

theorem Fits.unique {r : ℚ} {e e' : Int} (h : Fits r e) (h' : Fits r e') : e = e' := by
  have hlt {a b : Int} (ha : Fits r a) (hb : Fits r b) : ¬ a < b := by
    intro hab
    have hbelow := hb.below (lt_of_le_of_lt ha.least hab)
    have habove := ha.above
    have hstep : (2 : ℚ) ^ (a + 1) ≤ 2 ^ b := zpow_le_zpow_right₀ (by norm_num) (by omega)
    rw [zpow_add_one₀ (by norm_num)] at hstep
    norm_num [mantissaLimit] at hbelow habove
    linarith
  have h1 := hlt h h'
  have h2 := hlt h' h
  omega

theorem two_pow_log2_le {n : Nat} (hn : 0 < n) : (2 : ℚ) ^ (n.log2 : Int) ≤ n := by
  rw [zpow_natCast]
  exact_mod_cast Nat.log2_self_le hn.ne'

theorem lt_two_pow_log2 (n : Nat) : (n : ℚ) < 2 ^ ((n.log2 : Int) + 1) := by
  have h : ((n.log2 : Int) + 1) = ((n.log2 + 1 : Nat) : Int) := by push_cast; rfl
  rw [h, zpow_natCast]
  exact_mod_cast Nat.lt_log2_self

/-- The ratio has 53 or 54 bits at the guessed exponent. -/
theorem guess_bounds (hnum : 0 < num) (hden : 0 < den) :
    let guess : Int := (num.log2 : Int) - den.log2 - 53
    (mantissaLimit / 2 : Nat) * (2 : ℚ) ^ guess ≤ num / den ∧
      (num : ℚ) / den < 2 * mantissaLimit * 2 ^ guess := by
  intro guess
  have hd : (0 : ℚ) < den := by exact_mod_cast hden
  have hlow := two_pow_log2_le hnum
  have hhigh := lt_two_pow_log2 num
  have hdlow := two_pow_log2_le hden
  have hdhigh := lt_two_pow_log2 den
  have hnumexp : (num.log2 : Int) = guess + 53 + den.log2 := by omega
  have hpos : (0 : ℚ) < 2 ^ guess := by positivity
  have hdpos : (0 : ℚ) < 2 ^ (den.log2 : Int) := by positivity
  rw [hnumexp, zpow_add₀ (by norm_num), zpow_add₀ (by norm_num)] at hlow
  rw [hnumexp, zpow_add_one₀ (by norm_num), zpow_add₀ (by norm_num), zpow_add₀ (by norm_num)] at hhigh
  rw [zpow_add_one₀ (by norm_num)] at hdhigh
  have hscaledlow := mul_le_mul_of_nonneg_left hdlow hpos.le
  have hscaledhigh := mul_lt_mul_of_pos_left hdhigh hpos
  norm_num [mantissaLimit] at hlow hhigh hscaledlow hscaledhigh ⊢
  constructor
  · rw [le_div_iff₀ hd]
    linarith
  · rw [div_lt_iff₀ hd]
    linarith

theorem exponentFor_fits (hnum : 0 < num) (hden : 0 < den) :
    Fits ((num : ℚ) / den) (exponentFor num den) := by
  obtain ⟨hlow, hhigh⟩ := guess_bounds hnum hden
  set guess : Int := (num.log2 : Int) - den.log2 - 53 with hguess
  have hvalue : ((scale 2 num den guess).1 : ℚ) / (scale 2 num den guess).2 =
      num / den / 2 ^ guess := scale_value (by decide)
  have hpos : (0 : ℚ) < (scale 2 num den guess).2 := by
    exact_mod_cast scale_den_pos (by decide) hden
  have hpow : (0 : ℚ) < 2 ^ guess := by positivity
  -- the comparison of the definition says whether the ratio has 54 bits at the guess
  have hbits : mantissaLimit * (scale 2 num den guess).2 ≤ (scale 2 num den guess).1 ↔
      (mantissaLimit : ℚ) * 2 ^ guess ≤ num / den := by
    rw [← le_div_iff₀ hpow, ← hvalue, le_div_iff₀ hpos]
    exact_mod_cast Iff.rfl
  have hfits {e : Int} (habove : (num : ℚ) / den < mantissaLimit * 2 ^ e)
      (hbelow : (mantissaLimit / 2 : Nat) * (2 : ℚ) ^ e ≤ num / den) :
      Fits ((num : ℚ) / den) (max minExponent e) := by
    refine ⟨le_max_left _ _, lt_of_lt_of_le habove ?_, fun hlt => ?_⟩
    · have : (2 : ℚ) ^ e ≤ 2 ^ max minExponent e :=
        zpow_le_zpow_right₀ (by norm_num) (le_max_right _ _)
      gcongr
    · rwa [max_eq_right (by omega)]
  have hexp : exponentFor num den = max minExponent
      (if mantissaLimit * (scale 2 num den guess).2 ≤ (scale 2 num den guess).1 then guess + 1
        else guess) := rfl
  rw [hexp]
  split
  next h =>
    have h := hbits.mp h
    refine hfits ?_ ?_
    · rw [zpow_add_one₀ (by norm_num)]
      linarith
    · rw [zpow_add_one₀ (by norm_num)]
      norm_num [mantissaLimit] at h ⊢
      linarith
  next h =>
    have h := mt hbits.mpr h
    exact hfits (by linarith) hlow

/-! ### Rounded quotients -/

theorem roundDiv_mul_right (num den : Nat) {c : Nat} (hc : 0 < c) :
    roundDiv (num * c) (den * c) = roundDiv num den := by
  have hlt (a b : Nat) : 2 * (a * c) < b * c ↔ 2 * a < b := by
    rw [← Nat.mul_assoc]
    exact Nat.mul_lt_mul_right hc
  have hgt (a b : Nat) : b * c < 2 * (a * c) ↔ b < 2 * a := by
    rw [← Nat.mul_assoc]
    exact Nat.mul_lt_mul_right hc
  simp only [roundDiv, Nat.mul_div_mul_right _ _ hc, Nat.mul_mod_mul_right, hlt, hgt]

theorem roundDiv_congr {num' den' : Nat} (hden : 0 < den) (hden' : 0 < den')
    (h : (num : ℚ) / den = num' / den') : roundDiv num den = roundDiv num' den' := by
  have hd : (den : ℚ) ≠ 0 := by exact_mod_cast hden.ne'
  have hd' : (den' : ℚ) ≠ 0 := by exact_mod_cast hden'.ne'
  rw [div_eq_div_iff hd hd'] at h
  have hcross : num * den' = num' * den := by exact_mod_cast h
  rw [← roundDiv_mul_right num den hden', ← roundDiv_mul_right num' den' hden, hcross,
    Nat.mul_comm den den']

theorem roundDiv_eq_of_near {m : Nat} (hlow : 2 * m * den < 2 * num + den)
    (hhigh : 2 * num < (2 * m + 1) * den) : roundDiv num den = m := by
  have hdiv := Nat.div_add_mod num den
  have hden : 0 < den := by
    rcases Nat.eq_zero_or_pos den with rfl | h
    · simp at hhigh
    · exact h
  have hmod := Nat.mod_lt num hden
  set q := num / den
  set r := num % den
  have hq : q = m ∧ 2 * r < den ∨ q + 1 = m ∧ den < 2 * r := by
    have hqm : q ≤ m := by
      by_contra hlt
      have : (m + 1) * den ≤ q * den := Nat.mul_le_mul_right den (by omega)
      nlinarith
    have hmq : m ≤ q + 1 := by
      by_contra hlt
      have : (q + 2) * den ≤ m * den := Nat.mul_le_mul_right den (by omega)
      nlinarith
    rcases Nat.lt_or_ge q m with hlt | hge
    · have hm : m = q + 1 := by omega
      subst hm
      exact .inr ⟨rfl, by nlinarith⟩
    · have hm : m = q := by omega
      subst hm
      exact .inl ⟨rfl, by nlinarith⟩
  unfold roundDiv
  rcases hq with ⟨hq, hr⟩ | ⟨hq, hr⟩
  · rw [if_pos hr]
    exact hq
  · rw [if_neg (by omega), if_pos hr]
    exact hq

theorem roundDiv_le {k : Nat} (hden : 0 < den) (h : num ≤ k * den) : roundDiv num den ≤ k := by
  have hdiv := Nat.div_add_mod num den
  have hq : num / den ≤ k := Nat.div_le_of_le_mul (by rwa [Nat.mul_comm])
  unfold roundDiv
  rcases Nat.lt_or_ge (num / den) k with hlt | hge
  · dsimp only
    split_ifs <;> omega
  · have hk : num / den = k := by omega
    have hr : num % den = 0 := by
      rw [hk, Nat.mul_comm] at hdiv
      omega
    rw [if_pos (by omega)]
    omega

theorem le_roundDiv {k : Nat} (hden : 0 < den) (h : k * den ≤ num) : k ≤ roundDiv num den := by
  have hq : k ≤ num / den := (Nat.le_div_iff_mul_le hden).mpr h
  unfold roundDiv
  dsimp only
  split_ifs <;> omega

/-! ### Rounded ratios -/

/-- A mantissa with its exponent, brought to one form when a carry gave it a bit more. -/
def carried (negative : Bool) (mantissa : Nat) (exponent : Int) : Double :=
  let (m, e) := if mantissa = mantissaLimit then (mantissaLimit / 2, exponent + 1)
    else (mantissa, exponent)
  if maxExponent < e then .infinite negative else .finite negative m e

theorem ofRatio_eq_carried (negative : Bool) (hnum : 0 < num) :
    ofRatio negative num den = carried negative
      (roundDiv (scale 2 num den (exponentFor num den)).1 (scale 2 num den (exponentFor num den)).2)
      (exponentFor num den) := by
  unfold ofRatio carried
  rw [if_neg hnum.ne']

theorem carried_isCanonical (negative : Bool) {m : Nat} (he : minExponent ≤ e)
    (hm : m ≤ mantissaLimit) (hbits : minExponent < e → mantissaLimit / 2 ≤ m) :
    (carried negative m e).IsCanonical := by
  unfold carried
  by_cases hcarry : m = mantissaLimit
  · simp only [hcarry, if_true]
    split
    · trivial
    next h => exact ⟨by omega, by omega, by decide, .inl le_rfl⟩
  · simp only [hcarry, if_false]
    split
    · trivial
    next h =>
      refine ⟨he, by omega, by omega, ?_⟩
      by_cases hleast : minExponent < e
      · exact .inl (hbits hleast)
      · exact .inr (by omega)

theorem zero_isCanonical (negative : Bool) : (zero negative).IsCanonical := by
  refine ⟨le_rfl, ?_, ?_, .inr rfl⟩ <;> decide

theorem ofRatio_isCanonical (negative : Bool) (hden : 0 < den) :
    (ofRatio negative num den).IsCanonical := by
  rcases Nat.eq_zero_or_pos num with rfl | hnum
  · exact zero_isCanonical negative
  rw [ofRatio_eq_carried negative hnum]
  have hfits := exponentFor_fits hnum hden
  set e := exponentFor num den
  have hvalue : ((scale 2 num den e).1 : ℚ) / (scale 2 num den e).2 = num / den / 2 ^ e :=
    scale_value (by decide)
  have hscaled : 0 < (scale 2 num den e).2 := scale_den_pos (by decide) hden
  have hd : (0 : ℚ) < (scale 2 num den e).2 := by exact_mod_cast hscaled
  have hpow : (0 : ℚ) < 2 ^ e := by positivity
  refine carried_isCanonical negative hfits.least (roundDiv_le hscaled ?_)
    fun hlt => le_roundDiv hscaled ?_
  · have habove := hfits.above
    rw [← div_lt_iff₀ hpow, ← hvalue, div_lt_iff₀ hd] at habove
    exact_mod_cast habove.le
  · have hbelow := hfits.below hlt
    rw [← le_div_iff₀ hpow, ← hvalue, le_div_iff₀ hd] at hbelow
    exact_mod_cast hbelow

/-- The rounded number depends on the value of the ratio alone. -/
theorem ofRatio_congr (negative : Bool) {num' den' : Nat} (hden : 0 < den) (hden' : 0 < den')
    (h : (num : ℚ) / den = num' / den') : ofRatio negative num den = ofRatio negative num' den' := by
  have hd : (den : ℚ) ≠ 0 := by exact_mod_cast hden.ne'
  have hd' : (den' : ℚ) ≠ 0 := by exact_mod_cast hden'.ne'
  rcases Nat.eq_zero_or_pos num with rfl | hnum
  · have hnum' : num' = 0 := by simpa [hd'] using h.symm
    rw [hnum', ofRatio, ofRatio, if_pos rfl, if_pos rfl]
  have hnum' : 0 < num' := by
    rw [Nat.pos_iff_ne_zero]
    intro hzero
    rw [hzero, Nat.cast_zero, zero_div, div_eq_zero_iff] at h
    rcases h with h | h
    · exact hnum.ne' (by exact_mod_cast h)
    · exact hd h
  have he : exponentFor num den = exponentFor num' den' :=
    (exponentFor_fits hnum hden).unique (h ▸ exponentFor_fits hnum' hden')
  rw [ofRatio_eq_carried negative hnum, ofRatio_eq_carried negative hnum', ← he]
  congr 1
  refine roundDiv_congr (scale_den_pos (by decide) hden) (scale_den_pos (by decide) hden') ?_
  rw [scale_value (by decide), scale_value (by decide), h]

theorem roundDiv_eq_of_dist {m : Nat} (hden : 0 < den) (hlow : (m : ℚ) - 1 / 2 < num / den)
    (hhigh : (num : ℚ) / den < m + 1 / 2) : roundDiv num den = m := by
  have hd : (0 : ℚ) < den := by exact_mod_cast hden
  rw [lt_div_iff₀ hd] at hlow
  rw [div_lt_iff₀ hd] at hhigh
  refine roundDiv_eq_of_near ?_ ?_
  · have : (2 * m * den : ℚ) < 2 * num + den := by linarith
    exact_mod_cast this
  · have : (2 * num : ℚ) < (2 * m + 1) * den := by linarith
    exact_mod_cast this

theorem ofRatio_eq_of_fits (negative : Bool) {m : Nat} (hnum : 0 < num) (hden : 0 < den)
    (hfits : Fits ((num : ℚ) / den) e) (hlow : ((m : ℚ) - 1 / 2) * 2 ^ e < num / den)
    (hhigh : (num : ℚ) / den < (m + 1 / 2) * 2 ^ e) :
    ofRatio negative num den = carried negative m e := by
  have he : exponentFor num den = e := (exponentFor_fits hnum hden).unique hfits
  have hpow : (0 : ℚ) < 2 ^ e := by positivity
  rw [ofRatio_eq_carried negative hnum, he]
  congr 1
  refine roundDiv_eq_of_dist (scale_den_pos (by decide) hden) ?_ ?_
  · rw [scale_value (by decide)]
    exact (lt_div_iff₀ hpow).mpr hlow
  · rw [scale_value (by decide)]
    exact (div_lt_iff₀ hpow).mpr hhigh

/-- A ratio is rounded to a double when it lies within half the gap to the next one on each side.
Below a power of two the gap is half as wide. -/
theorem ofRatio_eq_of_near (negative : Bool) {m : Nat} (hnum : 0 < num) (hden : 0 < den)
    (hcanonical : (Double.finite negative m e).IsCanonical)
    (hlow : ((m : ℚ) - 1 / 2) * 2 ^ e < num / den)
    (hhigh : (num : ℚ) / den < (m + 1 / 2) * 2 ^ e)
    (hquarter : m = mantissaLimit / 2 → ((m : ℚ) - 1 / 4) * 2 ^ e < num / den) :
    ofRatio negative num den = .finite negative m e := by
  obtain ⟨hleast, hmost, hlimit, hbits⟩ := hcanonical
  have hpow : (0 : ℚ) < 2 ^ e := by positivity
  by_cases hdown : minExponent < e ∧ (num : ℚ) / den < (mantissaLimit / 2 : Nat) * 2 ^ e
  · -- the value lies below the power of two and is rounded up to it
    obtain ⟨hlt, hbelow⟩ := hdown
    have hm : m = mantissaLimit / 2 := by
      have hbits := hbits.resolve_right (by omega)
      by_contra hne
      have hone : ((mantissaLimit / 2 : Nat) : ℚ) + 1 ≤ m := by exact_mod_cast (by omega : _ < m)
      nlinarith
    have hhalf : (2 : ℚ) ^ e = 2 * 2 ^ (e - 1) := by
      rw [zpow_sub_one₀ (by norm_num)]
      ring
    have hquarter := hquarter hm
    have hfits : Fits ((num : ℚ) / den) (e - 1) := by
      refine ⟨by omega, ?_, fun _ => ?_⟩
      · rw [hhalf] at hbelow
        norm_num [mantissaLimit] at hbelow ⊢
        linarith
      · rw [hm, hhalf] at hquarter
        have hpow : (0 : ℚ) < 2 ^ (e - 1) := by positivity
        norm_num [mantissaLimit] at hquarter ⊢
        linarith
    have hcarry : carried negative mantissaLimit (e - 1) = .finite negative m e := by
      unfold carried
      rw [if_pos rfl]
      simp only [sub_add_cancel]
      rw [if_neg (by omega), hm]
    rw [← hcarry]
    refine ofRatio_eq_of_fits negative hnum hden hfits ?_ ?_
    · rw [hm, hhalf] at hquarter
      norm_num [mantissaLimit] at hquarter ⊢
      linarith
    · rw [hhalf] at hbelow
      have hpow : (0 : ℚ) < 2 ^ (e - 1) := by positivity
      norm_num [mantissaLimit] at hbelow ⊢
      linarith
  · have hfits : Fits ((num : ℚ) / den) e := by
      refine ⟨hleast, lt_trans hhigh ?_, fun hlt => ?_⟩
      · have : (m : ℚ) + 1 ≤ mantissaLimit := by exact_mod_cast hlimit
        nlinarith
      · by_contra hnot
        exact hdown ⟨hlt, lt_of_not_ge hnot⟩
    rw [ofRatio_eq_of_fits negative hnum hden hfits hlow hhigh]
    unfold carried
    rw [if_neg (by omega)]
    exact if_neg (by omega)

/-! ### Decimals -/

theorem lt_ten_pow_digitCount (n : Nat) : n < 10 ^ digitCount n :=
  (Nat.length_toDigits_le_iff (by decide) Nat.length_toDigits_pos).mp le_rfl

theorem ten_pow_digitCount_le {n : Nat} (hn : 0 < n) : 10 ^ (digitCount n - 1) ≤ n := by
  rcases Nat.eq_zero_or_pos (digitCount n - 1) with hone | hmore
  · rw [hone]
    exact hn
  · by_contra hlt
    have hle : digitCount n ≤ digitCount n - 1 :=
      (Nat.length_toDigits_le_iff (by decide) hmore).mpr (by omega)
    omega

theorem log_eq {r : ℚ} {p : Int} (hr : 0 < r) (hlow : 10 ^ p ≤ r) (hhigh : r < 10 ^ (p + 1)) :
    Int.log 10 r = p := by
  have hle := (Int.zpow_le_iff_le_log (b := 10) (by decide) hr).mp (by exact_mod_cast hlow)
  have hlt := (Int.lt_zpow_iff_log_lt (b := 10) (by decide) hr).mp (by exact_mod_cast hhigh)
  omega

/-- The places of a decimal before its point are a matter of its value. -/
theorem log_decimal {digits : Nat} (hdigits : 0 < digits) :
    Int.log 10 ((digits : ℚ) * 10 ^ e) = digitCount digits + e - 1 := by
  have hpow : (0 : ℚ) < 10 ^ e := by positivity
  have hpos : (0 : ℚ) < digits := by exact_mod_cast hdigits
  have hcount : 0 < digitCount digits := Nat.length_toDigits_pos
  have hlow : ((10 ^ (digitCount digits - 1) : Nat) : ℚ) ≤ digits := by
    exact_mod_cast ten_pow_digitCount_le hdigits
  have hhigh : (digits : ℚ) < ((10 ^ digitCount digits : Nat) : ℚ) := by
    exact_mod_cast lt_ten_pow_digitCount digits
  refine log_eq (by positivity) ?_ ?_
  · have hsplit : (digitCount digits + e - 1 : Int) = ((digitCount digits - 1 : Nat) : Int) + e := by
      omega
    rw [hsplit, zpow_add₀ (by norm_num), zpow_natCast]
    push_cast at hlow
    exact mul_le_mul_of_nonneg_right hlow hpow.le
  · have hsplit : (digitCount digits + e - 1 + 1 : Int) = ((digitCount digits : Nat) : Int) + e := by
      omega
    rw [hsplit, zpow_add₀ (by norm_num), zpow_natCast]
    push_cast at hhigh
    exact mul_lt_mul_of_pos_right hhigh hpow

theorem decimal_value (digits : Nat) (e : Int) :
    ((scale 10 digits 1 (-e)).1 : ℚ) / (scale 10 digits 1 (-e)).2 = digits * 10 ^ e := by
  rw [scale_value (by decide), zpow_neg]
  simp

theorem ofDecimal_eq_ofRatio (negative : Bool) {digits : Nat} (hdigits : 0 < digits)
    (hlow : -330 ≤ (digitCount digits : Int) + e) (hhigh : (digitCount digits : Int) + e ≤ 310) :
    ofDecimal negative digits e =
      ofRatio negative (scale 10 digits 1 (-e)).1 (scale 10 digits 1 (-e)).2 := by
  unfold ofDecimal
  rw [if_neg (by omega), if_neg (by omega)]

theorem ofDecimal_isCanonical (negative : Bool) (digits : Nat) (e : Int) :
    (ofDecimal negative digits e).IsCanonical := by
  unfold ofDecimal
  dsimp only
  split
  · exact zero_isCanonical negative
  · split
    · trivial
    · exact ofRatio_isCanonical negative (scale_den_pos (by decide) (by decide))

/-- A decimal is read by its value: zeros at its end and in its exponent come to the same. -/
theorem ofDecimal_congr (negative : Bool) {digits digits' : Nat} {e' : Int}
    (h : (digits : ℚ) * 10 ^ e = digits' * 10 ^ e') :
    ofDecimal negative digits e = ofDecimal negative digits' e' := by
  have hpow : (10 : ℚ) ^ e ≠ 0 := by positivity
  have hpow' : (10 : ℚ) ^ e' ≠ 0 := by positivity
  rcases Nat.eq_zero_or_pos digits with rfl | hdigits
  · have hzero : digits' = 0 := by simpa [hpow'] using h.symm
    rw [hzero, ofDecimal, ofDecimal, if_pos (.inl rfl), if_pos (.inl rfl)]
  have hdigits' : 0 < digits' := by
    rw [Nat.pos_iff_ne_zero]
    intro hzero
    rw [hzero, Nat.cast_zero, zero_mul] at h
    rcases mul_eq_zero.mp h with h | h
    · exact hdigits.ne' (by exact_mod_cast h)
    · exact hpow h
  have hplaces : (digitCount digits : Int) + e = digitCount digits' + e' := by
    have hlog := log_decimal (e := e) hdigits
    rw [h, log_decimal hdigits'] at hlog
    omega
  unfold ofDecimal
  simp only [hplaces, hdigits.ne', hdigits'.ne', false_or]
  split
  · rfl
  · split
    · rfl
    · refine ofRatio_congr negative (scale_den_pos (by decide) (by decide))
        (scale_den_pos (by decide) (by decide)) ?_
      rw [decimal_value, decimal_value, h]

end SuiteView.Double
