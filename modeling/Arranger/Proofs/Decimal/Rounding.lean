import Arranger.Decimal.Shortest
import Mathlib.Algebra.Order.Field.Power
import Mathlib.Tactic.Linarith
import Mathlib.Tactic.NormNum
import Mathlib.Tactic.Positivity
import Mathlib.Tactic.Ring

/-!
# Rounding to the nearest number

A quotient that lies in the rounding interval of a number is rounded to that number.  The scale
that is chosen is the least one at which the quotient has at most 53 bits; it is the scale of the
number, or the one below if the number is the least of its scale and the quotient is less.
-/

namespace Arranger.Decimal

/-! ## Quotients at a scale -/

/-- The quotient `num / den` counted in units of `2 ^ exponent`. -/
def atScale (num den : Nat) (exponent : Int) : Nat × Nat :=
  match exponent with
  | .ofNat k => (num, den * Nat.pow 2 k)
  | .negSucc k => (num * Nat.pow 2 (k + 1), den)

theorem atScale_pos {num den : Nat} (hden : 0 < den) (exponent : Int) :
    0 < (atScale num den exponent).2 := by
  cases exponent with
  | ofNat k => exact Nat.mul_pos hden (Nat.pow_pos (by decide))
  | negSucc k => exact hden

theorem atScale_eq (num den : Nat) (exponent : Int) :
    ((atScale num den exponent).1 : ℚ) / (atScale num den exponent).2 =
      num / den / 2 ^ exponent := by
  cases exponent with
  | ofNat k =>
      simp only [atScale, Nat.pow_eq, Nat.cast_mul, Nat.cast_pow, Nat.cast_ofNat, Int.ofNat_eq_natCast,
        zpow_natCast]
      rw [div_div]
  | negSucc k =>
      simp only [atScale, Nat.pow_eq, Nat.cast_mul, Nat.cast_pow, Nat.cast_ofNat, zpow_negSucc]
      rw [div_inv_eq_mul, mul_div_right_comm]

theorem scaled_pos (mantissa : Nat) (exponent : Int) : 0 < (scaled mantissa exponent).2 := by
  cases exponent with
  | ofNat k => exact Nat.one_pos
  | negSucc k => exact Nat.pow_pos (by decide)

theorem scaled_eq (mantissa : Nat) (exponent : Int) :
    ((scaled mantissa exponent).1 : ℚ) / (scaled mantissa exponent).2 =
      mantissa * 2 ^ exponent := by
  cases exponent with
  | ofNat k =>
      simp only [scaled, Nat.pow_eq, Nat.cast_mul, Nat.cast_pow, Nat.cast_ofNat, Int.ofNat_eq_natCast,
        zpow_natCast, Nat.cast_one, div_one]
  | negSucc k =>
      simp only [scaled, Nat.pow_eq, Nat.cast_pow, Nat.cast_ofNat, zpow_negSucc]
      rw [div_eq_mul_inv]

theorem onGrid_pos {num den : Nat} (hden : 0 < den) (exponent : Int) :
    0 < (onGrid num den exponent).2 := by
  cases exponent with
  | ofNat k => exact Nat.mul_pos hden (Nat.pow_pos (by decide))
  | negSucc k => exact hden

theorem onGrid_eq (num den : Nat) (exponent : Int) :
    ((onGrid num den exponent).1 : ℚ) / (onGrid num den exponent).2 =
      num / den / 10 ^ exponent := by
  cases exponent with
  | ofNat k =>
      simp only [onGrid, Nat.pow_eq, Nat.cast_mul, Nat.cast_pow, Nat.cast_ofNat, Int.ofNat_eq_natCast,
        zpow_natCast]
      rw [div_div]
  | negSucc k =>
      simp only [onGrid, Nat.pow_eq, Nat.cast_mul, Nat.cast_pow, Nat.cast_ofNat, zpow_negSucc]
      rw [div_inv_eq_mul, mul_div_right_comm]

/-! ## Rounding to whole numbers -/

theorem roundQuotient_eq
    {num den m : Nat} (hden : 0 < den) (hlow : 2 * (m * den) ≤ 2 * num + den)
    (hhigh : 2 * num ≤ 2 * (m * den) + den)
    (htie : m % 2 = 0 ∨ (2 * (m * den) < 2 * num + den ∧ 2 * num < 2 * (m * den) + den)) :
    roundQuotient num den = m := by
  have hdivision := Nat.div_add_mod num den
  have hless := Nat.mod_lt num hden
  obtain ⟨floor, hfloor⟩ : ∃ floor, floor = num / den := ⟨_, rfl⟩
  obtain ⟨remainder, hremainder⟩ : ∃ remainder, remainder = num % den := ⟨_, rfl⟩
  unfold roundQuotient
  rw [← hfloor, ← hremainder] at hdivision ⊢
  rw [← hremainder] at hless
  rw [Nat.mul_comm] at hdivision
  have hcases : m = floor ∨ m = floor + 1 := by
    by_contra hne
    rcases Nat.lt_or_ge m floor with hlt | hge
    · have hstep := Nat.mul_le_mul_right den hlt
      rw [Nat.succ_mul] at hstep
      omega
    · have hstep := Nat.mul_le_mul_right den (show floor + 2 ≤ m by omega)
      rw [Nat.add_mul] at hstep
      omega
  dsimp only
  rcases hcases with rfl | rfl
  · split
    · rfl
    · split
      · omega
      · split
        · rfl
        · omega
  · rw [Nat.add_mul floor 1 den] at hlow hhigh htie
    split
    · omega
    · split
      · rfl
      · split
        · omega
        · rfl

/-- A whole number at a distance of at most one half is the rounded one; at just one half it must be
even. -/
theorem roundQuotient_eq_of_near
    {num den m : Nat} (hden : 0 < den) (hlow : (m : ℚ) - 1 / 2 ≤ num / den)
    (hhigh : (num : ℚ) / den ≤ m + 1 / 2)
    (htie : m % 2 = 0 ∨ ((m : ℚ) - 1 / 2 < num / den ∧ (num : ℚ) / den < m + 1 / 2)) :
    roundQuotient num den = m := by
  have hpos : (0 : ℚ) < den := by exact_mod_cast hden
  rw [le_div_iff₀ hpos] at hlow
  rw [div_le_iff₀ hpos] at hhigh
  apply roundQuotient_eq hden
  · have hcast : (2 * ((m : ℚ) * den)) ≤ 2 * num + den := by linarith
    exact_mod_cast hcast
  · have hcast : (2 * (num : ℚ)) ≤ 2 * (m * den) + den := by linarith
    exact_mod_cast hcast
  · rcases htie with heven | ⟨hlow, hhigh⟩
    · exact .inl heven
    · rw [lt_div_iff₀ hpos] at hlow
      rw [div_lt_iff₀ hpos] at hhigh
      right
      constructor
      · have hcast : (2 * ((m : ℚ) * den)) < 2 * num + den := by linarith
        exact_mod_cast hcast
      · have hcast : (2 * (num : ℚ)) < 2 * (m * den) + den := by linarith
        exact_mod_cast hcast

/-! ## The scale of a quotient -/

/-- The scale at which a quotient is rounded. -/
def roundingScale (num den : Nat) : Int :=
  let low : Int := (num.log2 : Int) - (den.log2 : Int) - 53
  max (-1074)
    (if (atScale num den low).1 / (atScale num den low).2 < Nat.pow 2 53 then low else low + 1)

theorem nearestBits_eq {num : Nat} (hnum : num ≠ 0) (den : Nat) :
    nearestBits num den = min infinityBits
      ((roundingScale num den + 1074).toNat * Nat.pow 2 52 +
        roundQuotient (atScale num den (roundingScale num den)).1
          (atScale num den (roundingScale num den)).2) := by
  unfold nearestBits
  rw [if_neg hnum]
  rfl

theorem log2_bounds {n : Nat} (hn : n ≠ 0) :
    (2 : ℚ) ^ (n.log2 : Int) ≤ n ∧ (n : ℚ) < 2 ^ ((n.log2 : Int) + 1) := by
  constructor
  · have hle := Nat.log2_self_le hn
    rw [zpow_natCast]
    exact_mod_cast hle
  · have hlt := Nat.lt_log2_self (n := n)
    have hcast : ((n.log2 : Int) + 1) = ((n.log2 + 1 : Nat) : Int) := by push_cast; rfl
    rw [hcast, zpow_natCast]
    exact_mod_cast hlt

/-- A quotient lies within a factor of two of the power that its binary size names. -/
theorem size_bounds {num den : Nat} (hnum : num ≠ 0) (hden : den ≠ 0) :
    (2 : ℚ) ^ ((num.log2 : Int) - den.log2 - 1) < num / den ∧
      (num : ℚ) / den < 2 ^ ((num.log2 : Int) - den.log2 + 1) := by
  obtain ⟨hnumLow, hnumHigh⟩ := log2_bounds hnum
  obtain ⟨hdenLow, hdenHigh⟩ := log2_bounds hden
  have hpos : (0 : ℚ) < den := by exact_mod_cast Nat.pos_of_ne_zero hden
  have htwo : (2 : ℚ) ≠ 0 := by norm_num
  constructor
  · rw [lt_div_iff₀ hpos]
    calc (2 : ℚ) ^ ((num.log2 : Int) - den.log2 - 1) * den
        < 2 ^ ((num.log2 : Int) - den.log2 - 1) * 2 ^ ((den.log2 : Int) + 1) := by
          apply mul_lt_mul_of_pos_left hdenHigh
          positivity
      _ = 2 ^ (num.log2 : Int) := by
          rw [← zpow_add₀ htwo]
          congr 1
          ring
      _ ≤ num := hnumLow
  · rw [div_lt_iff₀ hpos]
    calc (num : ℚ) < 2 ^ ((num.log2 : Int) + 1) := hnumHigh
      _ = 2 ^ ((num.log2 : Int) - den.log2 + 1) * 2 ^ (den.log2 : Int) := by
          rw [← zpow_add₀ htwo]
          congr 1
          ring
      _ ≤ 2 ^ ((num.log2 : Int) - den.log2 + 1) * den := by
          apply mul_le_mul_of_nonneg_left hdenLow
          positivity

/-- At its rounding scale a quotient has at most 53 bits, and not fewer unless the scale is that of
the least numbers. -/
structure IsRoundingScale (value : ℚ) (scale : Int) : Prop where
  least : -1074 ≤ scale
  lt : value < 2 ^ 53 * 2 ^ scale
  le : scale = -1074 ∨ 2 ^ 52 * 2 ^ scale ≤ value

/-- The scale at which a value has 53 bits is its rounding scale, unless it is below the least one. -/
theorem isRoundingScale_max
    {value : ℚ} {scale : Int} (hle : 2 ^ 52 * 2 ^ scale ≤ value) (hlt : value < 2 ^ 53 * 2 ^ scale) :
    IsRoundingScale value (max (-1074) scale) := by
  rcases le_total (-1074) scale with hnormal | hsubnormal
  · rw [max_eq_right hnormal]
    exact ⟨hnormal, hlt, .inr hle⟩
  · rw [max_eq_left hsubnormal]
    have hmono : (2 : ℚ) ^ scale ≤ 2 ^ (-1074 : Int) :=
      zpow_le_zpow_right₀ (by norm_num) hsubnormal
    exact ⟨le_rfl, by linarith, .inl rfl⟩

/-- The quotient fits into 53 bits at a scale if its whole part does. -/
theorem div_atScale_lt_iff {den : Nat} (num : Nat) (hden : den ≠ 0) (scale : Int) :
    (atScale num den scale).1 / (atScale num den scale).2 < Nat.pow 2 53 ↔
      (num : ℚ) / den < 2 ^ 53 * 2 ^ scale := by
  have hpos : 0 < (atScale num den scale).2 := atScale_pos (Nat.pos_of_ne_zero hden) scale
  have hcast : (0 : ℚ) < (atScale num den scale).2 := by exact_mod_cast hpos
  have hpower : (0 : ℚ) < 2 ^ scale := by positivity
  rw [Nat.div_lt_iff_lt_mul hpos, ← div_lt_iff₀ hpower, ← atScale_eq, div_lt_iff₀ hcast]
  simp only [Nat.pow_eq]
  exact_mod_cast Iff.rfl

theorem isRoundingScale_roundingScale {num den : Nat} (hnum : num ≠ 0) (hden : den ≠ 0) :
    IsRoundingScale (num / den) (roundingScale num den) := by
  obtain ⟨hlow, hhigh⟩ := size_bounds hnum hden
  obtain ⟨low, hlowDef⟩ : ∃ low : Int, low = (num.log2 : Int) - den.log2 - 53 := ⟨_, rfl⟩
  have htwo : (2 : ℚ) ≠ 0 := by norm_num
  have hbelow : (2 : ℚ) ^ 52 * 2 ^ low < num / den := by
    have heq : ((num.log2 : Int) - den.log2 - 1) = 52 + low := by omega
    rw [heq, zpow_add₀ htwo] at hlow
    exact_mod_cast hlow
  have habove : (num : ℚ) / den < 2 ^ 53 * 2 ^ (low + 1) := by
    have heq : ((num.log2 : Int) - den.log2 + 1) = 53 + (low + 1) := by omega
    rw [heq, zpow_add₀ htwo] at hhigh
    exact_mod_cast hhigh
  -- the quotient has 53 bits at one of the two scales
  rw [roundingScale, ← hlowDef]
  simp only [div_atScale_lt_iff num hden low]
  split
  · next hsmall => exact isRoundingScale_max hbelow.le hsmall
  · next hlarge =>
    apply isRoundingScale_max _ habove
    rw [zpow_add_one₀ htwo]
    linarith

/-! ## Rounding intervals -/

/-- The size `mantissa * 2 ^ exponent` of a number that is not zero, as its bits give it. -/
structure IsSize (mantissa : Nat) (exponent : Int) : Prop where
  pos : 0 < mantissa
  lt : mantissa < 2 ^ 53
  least : -1074 ≤ exponent
  most : exponent ≤ 971
  normal : exponent = -1074 ∨ 2 ^ 52 ≤ mantissa

/-- A value that rounds to the size: it is at most half a unit away, and a quarter below a power of
two; a value at an end rounds to an even mantissa. -/
structure RoundsTo (mantissa : Nat) (exponent : Int) (value : ℚ) : Prop where
  low : (mantissa - 1 / 2) * 2 ^ exponent ≤ value
  high : value ≤ (mantissa + 1 / 2) * 2 ^ exponent
  tie : mantissa % 2 = 0 ∨
    ((mantissa - 1 / 2) * 2 ^ exponent < value ∧ value < (mantissa + 1 / 2) * 2 ^ exponent)
  power : mantissa = 2 ^ 52 → -1074 < exponent → (2 ^ 52 - 1 / 4) * 2 ^ exponent ≤ value

theorem IsSize.toNat_le {mantissa : Nat} {exponent : Int} (h : IsSize mantissa exponent) :
    (exponent + 1074).toNat ≤ 2045 := by
  have hmost := h.most
  omega

theorem RoundsTo.pos
    {mantissa : Nat} {exponent : Int} {value : ℚ} (h : RoundsTo mantissa exponent value)
    (hpos : 0 < mantissa) : 0 < value := by
  have hone : (1 : ℚ) ≤ mantissa := by exact_mod_cast hpos
  have hpower : (0 : ℚ) < 2 ^ exponent := by positivity
  have hlow := h.low
  nlinarith

section Scales

variable {value : ℚ} {scale : Int} {mantissa : Nat} {exponent : Int}

theorem zpow_two_sub_one (exponent : Int) : (2 : ℚ) ^ (exponent - 1) = 2 ^ exponent / 2 :=
  zpow_sub_one₀ (by norm_num) exponent

theorem IsRoundingScale.le_of_roundsTo
    (hscale : IsRoundingScale value scale) (hsize : IsSize mantissa exponent)
    (h : RoundsTo mantissa exponent value) : scale ≤ exponent := by
  have hpower : (0 : ℚ) < 2 ^ exponent := by positivity
  have hbound : (mantissa : ℚ) + 1 ≤ 2 ^ 53 := by exact_mod_cast hsize.lt
  by_contra hlt
  rcases hscale.le with heq | hfull
  · have hleast := hsize.least
    omega
  · have hmono : (2 : ℚ) ^ (exponent + 1) ≤ 2 ^ scale :=
      zpow_le_zpow_right₀ (by norm_num) (by omega)
    rw [zpow_add_one₀ (by norm_num)] at hmono
    have hhigh := h.high
    nlinarith

/-- Only a value that rounds to the least mantissa has a scale below that of the size. -/
theorem IsRoundingScale.eq_least_of_lt
    (hscale : IsRoundingScale value scale) (hsize : IsSize mantissa exponent)
    (h : RoundsTo mantissa exponent value) (hlt : scale < exponent) : mantissa = 2 ^ 52 := by
  have hpower : (0 : ℚ) < 2 ^ exponent := by positivity
  have hnormal : 2 ^ 52 ≤ mantissa := by
    rcases hsize.normal with heq | hnormal
    · have hleast := hscale.least
      omega
    · exact hnormal
  have hmono : (2 : ℚ) ^ scale ≤ 2 ^ (exponent - 1) :=
    zpow_le_zpow_right₀ (by norm_num) (by omega)
  rw [zpow_two_sub_one] at hmono
  have hvalue := hscale.lt
  have hlow := h.low
  have hcast : (mantissa : ℚ) < 2 ^ 52 + 1 := by
    by_contra hge
    rw [not_lt] at hge
    nlinarith
  have hnat : mantissa < 2 ^ 52 + 1 := by exact_mod_cast hcast
  omega

/-- The rounding scale is that of the size, or the one below for the least mantissa. -/
theorem roundingScale_cases
    (hsize : IsSize mantissa exponent) (h : RoundsTo mantissa exponent value)
    (hscale : IsRoundingScale value scale) :
    scale = exponent ∨ scale = exponent - 1 ∧ mantissa = 2 ^ 52 ∧ -1074 < exponent := by
  rcases Int.lt_or_eq_of_le (hscale.le_of_roundsTo hsize h) with hlt | heq
  · have hmantissa := hscale.eq_least_of_lt hsize h hlt
    have hexponent : -1074 < exponent := Int.lt_of_le_of_lt hscale.least hlt
    refine .inr ⟨?_, hmantissa, hexponent⟩
    -- a quarter below the power of two the quotient has 53 bits at the next scale already
    by_contra hne
    have hpower : (0 : ℚ) < 2 ^ exponent := by positivity
    have hquarter : (2 : ℚ) ^ scale ≤ 2 ^ (exponent - 1 - 1) :=
      zpow_le_zpow_right₀ (by norm_num) (by omega)
    rw [zpow_two_sub_one, zpow_two_sub_one] at hquarter
    have hvalue := hscale.lt
    have hpowerLow := h.power hmantissa hexponent
    linarith
  · exact .inl heq

end Scales

section Nearest

variable {num den mantissa : Nat} {exponent : Int}

theorem roundQuotient_of_roundsTo
    (hden : den ≠ 0) (h : RoundsTo mantissa exponent (num / den)) :
    roundQuotient (atScale num den exponent).1 (atScale num den exponent).2 = mantissa := by
  have hpower : (0 : ℚ) < 2 ^ exponent := by positivity
  apply roundQuotient_eq_of_near (atScale_pos (Nat.pos_of_ne_zero hden) _)
  · rw [atScale_eq, le_div_iff₀ hpower]
    exact h.low
  · rw [atScale_eq, div_le_iff₀ hpower]
    exact h.high
  · rw [atScale_eq, lt_div_iff₀ hpower, div_lt_iff₀ hpower]
    exact h.tie

/-- At the scale below, a value that rounds to the least mantissa is rounded up to 54 bits. -/
theorem roundQuotient_below_of_roundsTo
    (hden : den ≠ 0) (h : RoundsTo (2 ^ 52) exponent (num / den)) (hexponent : -1074 < exponent)
    (hlt : (num : ℚ) / den < 2 ^ 53 * 2 ^ (exponent - 1)) :
    roundQuotient (atScale num den (exponent - 1)).1 (atScale num den (exponent - 1)).2 =
      2 ^ 53 := by
  have hpower : (0 : ℚ) < 2 ^ (exponent - 1) := by positivity
  have hpowerLow := h.power rfl hexponent
  have hhalf := zpow_two_sub_one exponent
  apply roundQuotient_eq_of_near (atScale_pos (Nat.pos_of_ne_zero hden) _)
  · rw [atScale_eq, le_div_iff₀ hpower]
    push_cast
    linarith
  · rw [atScale_eq, div_le_iff₀ hpower]
    push_cast
    linarith
  · left
    norm_num

theorem nearestBits_of_roundsTo
    (hsize : IsSize mantissa exponent) (hden : den ≠ 0)
    (h : RoundsTo mantissa exponent (num / den)) :
    nearestBits num den = (exponent + 1074).toNat * 2 ^ 52 + mantissa := by
  have hnum : num ≠ 0 := by
    rintro rfl
    have hpos := h.pos hsize.pos
    simp at hpos
  have hscale := isRoundingScale_roundingScale hnum hden
  have hbound := hsize.lt
  have hmost := hsize.toNat_le
  have hinfinity : infinityBits = 2047 * 2 ^ 52 := rfl
  rw [nearestBits_eq hnum]
  simp only [Nat.pow_eq]
  rcases roundingScale_cases hsize h hscale with heq | ⟨heq, rfl, hexponent⟩
  · rw [heq, roundQuotient_of_roundsTo hden h]
    omega
  · have hlt := hscale.lt
    rw [heq] at hlt
    rw [heq, roundQuotient_below_of_roundsTo hden h hexponent hlt]
    omega

end Nearest

end Arranger.Decimal
