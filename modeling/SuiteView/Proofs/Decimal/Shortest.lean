import Mathlib.Data.Nat.Cast.Order.Field
import SuiteView.Decimal.Shortest
import SuiteView.Proofs.Decimal.Rounding

/-!
# The shortest decimal is there

Seventeen digits always read back: the decimals with seventeen digits lie closer together than the
doubles around a value, also below a power of two, where those are half as far apart. So the search
ends, and what it ends with reads as the number it was made for.
-/

namespace SuiteView.Double

/-! ### The sign -/

def signed (negative : Bool) : Double → Double
  | .finite _ m e => .finite negative m e
  | .infinite _ => .infinite negative
  | .nan => .nan

theorem ofRatio_signed (negative : Bool) (num den : Nat) :
    ofRatio negative num den = signed negative (ofRatio false num den) := by
  unfold ofRatio
  dsimp only
  split_ifs <;> rfl

theorem ofDecimal_signed (negative : Bool) (digits : Nat) (e : Int) :
    ofDecimal negative digits e = signed negative (ofDecimal false digits e) := by
  unfold ofDecimal
  dsimp only
  split_ifs
  · rfl
  · rfl
  · exact ofRatio_signed negative _ _

/-! ### The place of the point -/

variable {m num den : Nat} {e : Int}

theorem ratio_value (m : Nat) (e : Int) : ((ratio m e).1 : ℚ) / (ratio m e).2 = m * 2 ^ e := by
  rw [ratio, scale_value (by decide), zpow_neg]
  simp

/-- The digits of a ratio, scaled by a power of ten until it has some, tell its places. -/
theorem digitCount_bounds {k : Nat} {point : Int} (hden : 0 < den)
    (hleast : (10 : ℚ) ^ (-(k : Int)) ≤ num / den)
    (hpoint : point = (digitCount (num * Nat.pow 10 k / den) : Int) - k) :
    (10 : ℚ) ^ (point - 1) ≤ num / den ∧ (num : ℚ) / den < 10 ^ point := by
  have hd : (0 : ℚ) < den := by exact_mod_cast hden
  have hk : (0 : ℚ) < 10 ^ k := by positivity
  rw [Nat.pow_eq] at hpoint
  set scaled := num * 10 ^ k / den
  have hfloor : (scaled : ℚ) ≤ num / den * 10 ^ k := by
    have h : scaled * den ≤ num * 10 ^ k := Nat.div_mul_le_self _ _
    have h : (scaled * den : ℚ) ≤ num * 10 ^ k := by exact_mod_cast h
    rw [div_mul_eq_mul_div, le_div_iff₀ hd]
    exact h
  have hceil : (num : ℚ) / den * 10 ^ k < scaled + 1 := by
    have h : num * 10 ^ k < den * (scaled + 1) := Nat.lt_mul_div_succ _ hden
    have h : (num * 10 ^ k : ℚ) < den * (scaled + 1) := by exact_mod_cast h
    rw [div_mul_eq_mul_div, div_lt_iff₀ hd]
    linarith
  have hpos : 0 < scaled := by
    rw [zpow_neg, zpow_natCast, inv_le_iff_one_le_mul₀ hk] at hleast
    have h : (0 : ℚ) < scaled := by linarith
    exact_mod_cast h
  have hcount : 0 < digitCount scaled := Nat.length_toDigits_pos
  have hlow : ((10 ^ (digitCount scaled - 1) : Nat) : ℚ) ≤ scaled := by
    exact_mod_cast ten_pow_digitCount_le hpos
  have hhigh : (scaled : ℚ) + 1 ≤ ((10 ^ digitCount scaled : Nat) : ℚ) := by
    exact_mod_cast lt_ten_pow_digitCount scaled
  push_cast at hlow hhigh
  rw [hpoint]
  constructor
  · have hsplit : (digitCount scaled : Int) - k - 1 = ((digitCount scaled - 1 : Nat) : Int) - k := by
      omega
    rw [hsplit, zpow_sub₀ (by norm_num), zpow_natCast, zpow_natCast, div_le_iff₀ hk]
    exact hlow.trans hfloor
  · rw [zpow_sub₀ (by norm_num), zpow_natCast, zpow_natCast, lt_div_iff₀ hk]
    exact hceil.trans_le hhigh

theorem pointPosition_bounds (hden : 0 < den) (hleast : (10 : ℚ) ^ (-324 : Int) ≤ num / den) :
    (10 : ℚ) ^ (pointPosition num den - 1) ≤ num / den ∧
      (num : ℚ) / den < 10 ^ pointPosition num den :=
  digitCount_bounds hden ((zpow_le_zpow_right₀ (by norm_num) (by norm_num)).trans hleast) rfl

/-- A double has this many places before its point; the bounds are those of all doubles. -/
structure Placed (m : Nat) (e point : Int) : Prop where
  low : (10 : ℚ) ^ (point - 1) ≤ m * 2 ^ e
  high : (m : ℚ) * 2 ^ e < 10 ^ point
  least : -323 ≤ point
  most : point ≤ 309

theorem ten_zpow_le_two_zpow : (10 : ℚ) ^ (-324 : Int) ≤ 2 ^ minExponent := by
  have h : 2 ^ 1074 ≤ 10 ^ 324 := by decide +kernel
  have h : (2 : ℚ) ^ 1074 ≤ 10 ^ 324 := by exact_mod_cast h
  have hten : (10 : ℚ) ^ (-324 : Int) = (10 ^ 324)⁻¹ := zpow_neg_coe_of_pos 10 (by decide)
  have htwo : (2 : ℚ) ^ minExponent = (2 ^ 1074)⁻¹ := zpow_neg_coe_of_pos 2 (by decide)
  rw [hten, htwo]
  exact inv_anti₀ (by positivity) h

theorem two_zpow_lt_ten_zpow : (mantissaLimit : ℚ) * 2 ^ maxExponent < 10 ^ (309 : Int) := by
  have h : mantissaLimit * 2 ^ 971 < 10 ^ 309 := by decide +kernel
  have h : (mantissaLimit : ℚ) * 2 ^ 971 < 10 ^ 309 := by exact_mod_cast h
  have htwo : (2 : ℚ) ^ maxExponent = 2 ^ 971 := zpow_natCast 2 971
  have hten : (10 : ℚ) ^ (309 : Int) = 10 ^ 309 := zpow_natCast 10 309
  rw [htwo, hten]
  exact h

theorem pointPosition_placed {negative : Bool} (hm : 0 < m)
    (hcanonical : (Double.finite negative m e).IsCanonical) :
    Placed m e (pointPosition (ratio m e).1 (ratio m e).2) := by
  obtain ⟨hleast, hmost, hlimit, -⟩ := hcanonical
  have hvalue := ratio_value m e
  have hden : 0 < (ratio m e).2 := scale_den_pos (by decide) (by decide)
  have hm1 : (1 : ℚ) ≤ m := by exact_mod_cast hm
  have hmlimit : (m : ℚ) < mantissaLimit := by exact_mod_cast hlimit
  have hpow : (0 : ℚ) < 2 ^ e := by positivity
  have hlow : (10 : ℚ) ^ (-324 : Int) ≤ m * 2 ^ e := by
    have h : (2 : ℚ) ^ minExponent ≤ 2 ^ e := zpow_le_zpow_right₀ (by norm_num) hleast
    have hone := mul_le_mul_of_nonneg_right hm1 hpow.le
    have := ten_zpow_le_two_zpow
    linarith
  have hhigh : (m : ℚ) * 2 ^ e < 10 ^ (309 : Int) := by
    have h : (2 : ℚ) ^ e ≤ 2 ^ maxExponent := zpow_le_zpow_right₀ (by norm_num) hmost
    exact (mul_lt_mul hmlimit h hpow (Nat.cast_nonneg _)).trans two_zpow_lt_ten_zpow
  obtain ⟨hbelow, habove⟩ := pointPosition_bounds hden (hvalue ▸ hlow)
  rw [hvalue] at hbelow habove
  refine ⟨hbelow, habove, ?_, ?_⟩
  · have := (zpow_lt_zpow_iff_right₀ (by norm_num : (1 : ℚ) < 10)).mp (hlow.trans_lt habove)
    omega
  · have := (zpow_lt_zpow_iff_right₀ (by norm_num : (1 : ℚ) < 10)).mp (hbelow.trans_lt hhigh)
    omega

/-! ### Seventeen digits -/

theorem Placed.first {point : Int} (h : Placed m e point) :
    (10 : ℚ) ^ 16 * 10 ^ (point - 17) ≤ m * 2 ^ e := by
  have hfirst : (10 : ℚ) ^ (point - 1) = 10 ^ 16 * 10 ^ (point - 17) := by
    rw [← zpow_natCast, ← zpow_add₀ (by norm_num)]
    congr 1
    omega
  exact hfirst ▸ h.low

theorem Placed.last {point : Int} (h : Placed m e point) :
    (m : ℚ) * 2 ^ e < 10 ^ 17 * 10 ^ (point - 17) := by
  have hlast : (10 : ℚ) ^ point = 10 ^ 17 * 10 ^ (point - 17) := by
    rw [← zpow_natCast, ← zpow_add₀ (by norm_num)]
    congr 1
    omega
  exact hlast ▸ h.high

/-- A step of seventeen digits is smaller than the gap between the doubles. -/
theorem Placed.step_lt {point : Int} (h : Placed m e point) (hm : m < mantissaLimit) :
    (10 : ℚ) ^ (point - 17) < 2 ^ e := by
  have hpow : (0 : ℚ) < 2 ^ e := by positivity
  have hfirst := h.first
  have hlimit : (m : ℚ) < mantissaLimit := by exact_mod_cast hm
  have hscaled := mul_lt_mul_of_pos_right hlimit hpow
  norm_num [mantissaLimit] at hscaled hfirst
  linarith

/-- At a power of two it is smaller than half the gap. -/
theorem Placed.two_steps_lt {point : Int} (h : Placed m e point) (hm : m = mantissaLimit / 2) :
    2 * (10 : ℚ) ^ (point - 17) < 2 ^ e := by
  have hpow : (0 : ℚ) < 2 ^ e := by positivity
  have hfirst := h.first
  rw [hm] at hfirst
  norm_num [mantissaLimit] at hfirst
  linarith

/-- A decimal within half a step has seventeen digits, or eighteen after a carry. -/
theorem Placed.bounds {point : Int} {c : Nat} (h : Placed m e point)
    (hlow : (m : ℚ) * 2 ^ e - 10 ^ (point - 17) / 2 ≤ c * 10 ^ (point - 17))
    (hhigh : (c : ℚ) * 10 ^ (point - 17) ≤ m * 2 ^ e + 10 ^ (point - 17) / 2) :
    10 ^ 16 ≤ c ∧ c ≤ 10 ^ 17 := by
  have hstep : (0 : ℚ) < 10 ^ (point - 17) := by positivity
  have hfirst := h.first
  have hlast := h.last
  have habove : ((10 ^ 16 : Nat) : ℚ) < ((c + 1 : Nat) : ℚ) := by
    push_cast
    nlinarith
  have hbelow : (c : ℚ) < ((10 ^ 17 + 1 : Nat) : ℚ) := by
    push_cast
    nlinarith
  have hleast : 10 ^ 16 < c + 1 := by exact_mod_cast habove
  have hmost : c < 10 ^ 17 + 1 := by exact_mod_cast hbelow
  omega

theorem digitCount_of_bounds {c : Nat} (hleast : 10 ^ 16 ≤ c) (hmost : c ≤ 10 ^ 17) :
    17 ≤ digitCount c ∧ digitCount c ≤ 18 := by
  constructor
  · by_contra hlt
    have hle : digitCount c ≤ 16 := by omega
    have := (Nat.length_toDigits_le_iff (by decide) (by decide)).mp hle
    omega
  · exact (Nat.length_toDigits_le_iff (by decide) (by decide)).mpr (by omega)

/-- A decimal of seventeen digits within half a step of a double is read as the double. -/
theorem ofDecimal_eq_of_near {c : Nat} {point : Int}
    (hcanonical : (Double.finite false m e).IsCanonical) (hplaced : Placed m e point)
    (hlow : (m : ℚ) * 2 ^ e - 10 ^ (point - 17) / 2 ≤ c * 10 ^ (point - 17))
    (hhigh : (c : ℚ) * 10 ^ (point - 17) ≤ m * 2 ^ e + 10 ^ (point - 17) / 2) :
    ofDecimal false c (point - 17) = .finite false m e := by
  obtain ⟨hc16, hc17⟩ := hplaced.bounds hlow hhigh
  obtain ⟨hcount17, hcount18⟩ := digitCount_of_bounds hc16 hc17
  have hleast := hplaced.least
  have hmost := hplaced.most
  have hgap := hplaced.step_lt hcanonical.2.2.1
  have hden : 0 < (scale 10 c 1 (-(point - 17))).2 := scale_den_pos (by decide) (by decide)
  have hvalue := decimal_value c (point - 17)
  rw [ofDecimal_eq_ofRatio false (by omega) (by omega) (by omega)]
  refine ofRatio_eq_of_near false ?_ hden hcanonical ?_ ?_ fun h => ?_
  · rw [Nat.pos_iff_ne_zero]
    intro hzero
    rw [hzero, Nat.cast_zero, zero_div] at hvalue
    have hcpos : (0 : ℚ) < c := by exact_mod_cast (show 0 < c by omega)
    have hstep : (0 : ℚ) < 10 ^ (point - 17) := by positivity
    exact (mul_pos hcpos hstep).ne hvalue
  · rw [hvalue]
    linarith
  · rw [hvalue]
    linarith
  · rw [hvalue]
    have := hplaced.two_steps_lt h
    linarith

theorem readingNeighbour?_reads {value : Double} {c : Nat}
    (h : readingNeighbour? value num den e = some c) : ofDecimal false c e = value := by
  unfold readingNeighbour? at h
  set n := (scale 10 num den e).1
  set d := (scale 10 num den e).2
  dsimp only at h
  split at h
  next hlow hhigh =>
    have hround : roundDiv n d = n / d ∨ roundDiv n d = n / d + 1 := by
      unfold roundDiv
      dsimp only
      split_ifs <;> simp
    cases h
    rcases hround with hround | hround
    · rw [hround]
      exact of_decide_eq_true hlow
    · rw [hround]
      exact of_decide_eq_true hhigh
  next hlow _ =>
    cases h
    exact of_decide_eq_true hlow
  next _ hhigh =>
    cases h
    exact of_decide_eq_true hhigh
  next => cases h

theorem readingNeighbour?_isSome {value : Double}
    (h : ofDecimal false ((scale 10 num den e).1 / (scale 10 num den e).2) e = value ∨
      ofDecimal false ((scale 10 num den e).1 / (scale 10 num den e).2 + 1) e = value) :
    (readingNeighbour? value num den e).isSome = true := by
  unfold readingNeighbour?
  dsimp only
  split
  · rfl
  · rfl
  · rfl
  next hlow hhigh =>
    rcases h with h | h
    · exact absurd h (of_decide_eq_false hlow)
    · exact absurd h (of_decide_eq_false hhigh)

theorem seventeen_digits {point : Int}
    (hcanonical : (Double.finite false m e).IsCanonical) (hplaced : Placed m e point) :
    (readingNeighbour? (.finite false m e) (ratio m e).1 (ratio m e).2 (point - 17)).isSome =
      true := by
  have hden : 0 < (ratio m e).2 := scale_den_pos (by decide) (by decide)
  have hstep : (0 : ℚ) < 10 ^ (point - 17) := by positivity
  apply readingNeighbour?_isSome
  set n := (scale 10 (ratio m e).1 (ratio m e).2 (point - 17)).1
  set d := (scale 10 (ratio m e).1 (ratio m e).2 (point - 17)).2
  have hd : 0 < d := scale_den_pos (by decide) hden
  have hvalue : (n : ℚ) / d * 10 ^ (point - 17) = m * 2 ^ e := by
    have h : (n : ℚ) / d = (ratio m e).1 / (ratio m e).2 / 10 ^ (point - 17) :=
      scale_value (by decide)
    rw [h, ratio_value, div_mul_cancel₀ _ hstep.ne']
  have hfloor : ((n / d : Nat) : ℚ) ≤ n / d := Nat.cast_div_le
  have hceil : (n : ℚ) / d < (n / d : Nat) + 1 := by
    have hdq : (0 : ℚ) < d := by exact_mod_cast hd
    rw [div_lt_iff₀ hdq]
    have h : n < (n / d + 1) * d := by
      rw [Nat.mul_comm]
      exact Nat.lt_mul_div_succ n hd
    exact_mod_cast h
  set low := n / d
  set step : ℚ := 10 ^ (point - 17) with hstepdef
  rcases le_total ((n : ℚ) / d - low) (1 / 2) with hnear | hfar
  · left
    refine ofDecimal_eq_of_near hcanonical hplaced ?_ ?_
    · rw [← hvalue, ← hstepdef]
      nlinarith
    · rw [← hvalue, ← hstepdef]
      nlinarith
  · right
    refine ofDecimal_eq_of_near hcanonical hplaced ?_ ?_
    · rw [← hvalue, ← hstepdef]
      push_cast
      nlinarith
    · rw [← hvalue, ← hstepdef]
      push_cast
      nlinarith

/-- The shortest decimal of a double reads as the double. -/
theorem shortest_reads (negative : Bool) (hm : 0 < m)
    (hcanonical : (Double.finite negative m e).IsCanonical) :
    ofDecimal negative (shortest m e).1 (shortest m e).2 = .finite negative m e := by
  have hplaced := pointPosition_placed hm hcanonical
  have hsome := seventeen_digits hcanonical hplaced
  set point := pointPosition (ratio m e).1 (ratio m e).2 with hpoint
  set attempt : Nat → Option (Nat × Int) := fun k =>
    (readingNeighbour? (.finite false m e) (ratio m e).1 (ratio m e).2 (point - (k + 1 : Nat))).map
      fun digits => (digits, point - (k + 1 : Nat)) with hattempt
  have hshortest : shortest m e = ((List.range 17).findSome? attempt).getD (0, 0) := rfl
  have hfound : ((List.range 17).findSome? attempt).isSome = true := by
    rw [List.findSome?_isSome_iff]
    exact ⟨16, by decide, by simpa [hattempt] using hsome⟩
  obtain ⟨found, hfound⟩ := Option.isSome_iff_exists.mp hfound
  obtain ⟨k, -, hk⟩ := List.exists_of_findSome?_eq_some hfound
  rw [hattempt, Option.map_eq_some_iff] at hk
  obtain ⟨digits, hdigits, rfl⟩ := hk
  rw [hshortest, hfound, ofDecimal_signed]
  exact congrArg (signed negative) (readingNeighbour?_reads hdigits)

end SuiteView.Double
