import Arranger.Proofs.Decimal.Shortest

/-!
# Rounding keeps the order

The greater of two quotients is not rounded to the lesser number, be it to a whole number or to a
binary64 number.  A quotient has one rounding scale; a greater one has that scale or a higher one,
and the least mantissa of a higher scale lies where the mantissas below it end.
-/

namespace Arranger.Decimal

variable {num den num' den' : Nat} {value value' : ℚ} {scale scale' : Int}

/-! ## Whole numbers -/

theorem roundQuotient_mono
    (hden : 0 < den) (hden' : 0 < den') (h : (num : ℚ) / den ≤ num' / den') :
    roundQuotient num den ≤ roundQuotient num' den' := by
  have hnear : |(roundQuotient num den : ℚ) - num / den| ≤ 1 / 2 := roundQuotient_near hden
  have hnear' : |(roundQuotient num' den' : ℚ) - num' / den'| ≤ 1 / 2 := roundQuotient_near hden'
  obtain ⟨hlow, hhigh⟩ := abs_le.1 hnear
  obtain ⟨hlow', hhigh'⟩ := abs_le.1 hnear'
  by_contra hlt
  rw [not_le] at hlt
  -- the two are neighbours, and both quotients are the midpoint between them
  have hstep : (roundQuotient num' den' : ℚ) + 1 ≤ roundQuotient num den := by exact_mod_cast hlt
  have hsucc : roundQuotient num den = roundQuotient num' den' + 1 := by
    have hcast : (roundQuotient num den : ℚ) ≤ roundQuotient num' den' + 1 := by linarith
    have hle : roundQuotient num den ≤ roundQuotient num' den' + 1 := by exact_mod_cast hcast
    omega
  rcases Nat.mod_two_eq_zero_or_one (roundQuotient num den) with heven | hodd
  · have hsame : roundQuotient num' den' = roundQuotient num den :=
      roundQuotient_eq_of_near hden' (by linarith) (by linarith) (.inl heven)
    omega
  · have hsame : roundQuotient num den = roundQuotient num' den' :=
      roundQuotient_eq_of_near hden (by linarith) (by linarith) (.inl (by omega))
    omega

theorem roundQuotient_congr
    (hden : 0 < den) (hden' : 0 < den') (h : (num : ℚ) / den = num' / den') :
    roundQuotient num den = roundQuotient num' den' :=
  Nat.le_antisymm (roundQuotient_mono hden hden' h.le) (roundQuotient_mono hden' hden h.ge)

theorem roundQuotient_le_of_le {n : Nat} (hden : 0 < den) (h : (num : ℚ) / den ≤ n) :
    roundQuotient num den ≤ n := by
  have hmono : roundQuotient num den ≤ roundQuotient n 1 :=
    roundQuotient_mono hden Nat.one_pos (by simpa using h)
  rwa [roundQuotient_one] at hmono

theorem le_roundQuotient_of_le {n : Nat} (hden : 0 < den) (h : (n : ℚ) ≤ num / den) :
    n ≤ roundQuotient num den := by
  have hmono : roundQuotient n 1 ≤ roundQuotient num den :=
    roundQuotient_mono Nat.one_pos hden (by simpa using h)
  rwa [roundQuotient_one] at hmono

/-! ## Rounding scales -/

theorem IsRoundingScale.le_of_le
    (h : IsRoundingScale value scale) (h' : IsRoundingScale value' scale') (hle : value ≤ value') :
    scale ≤ scale' := by
  by_contra hlt
  rw [not_le] at hlt
  rcases h.le with hleast | hfull
  · have hleast' := h'.least
    omega
  · have hhalf := zpow_two_sub_one scale
    have hmono : (2 : ℚ) ^ scale' ≤ 2 ^ (scale - 1) :=
      zpow_le_zpow_right₀ (by norm_num) (by omega)
    have hlt' := h'.lt
    linarith

theorem IsRoundingScale.unique
    (h : IsRoundingScale value scale) (h' : IsRoundingScale value scale') : scale = scale' :=
  Int.le_antisymm (h.le_of_le h' le_rfl) (h'.le_of_le h le_rfl)

theorem IsRoundingScale.roundQuotient_le
    (h : IsRoundingScale (num / den) scale) (hden : 0 < den) :
    roundQuotient (atScale num den scale).1 (atScale num den scale).2 ≤ 2 ^ 53 := by
  apply roundQuotient_le_of_le (atScale_pos hden scale)
  rw [atScale_eq, div_le_iff₀ (by positivity)]
  have hlt := h.lt
  push_cast
  exact hlt.le

theorem IsRoundingScale.le_roundQuotient
    (h : IsRoundingScale (num / den) scale) (hden : 0 < den) (hscale : scale ≠ -1074) :
    2 ^ 52 ≤ roundQuotient (atScale num den scale).1 (atScale num den scale).2 := by
  apply le_roundQuotient_of_le (atScale_pos hden scale)
  rw [atScale_eq, le_div_iff₀ (by positivity)]
  push_cast
  exact h.le.resolve_left hscale

/-! ## Nearest numbers -/

theorem nearestBits_zero (den : Nat) : nearestBits 0 den = 0 := rfl

theorem nearestBits_of_isRoundingScale
    (hnum : num ≠ 0) (hden : den ≠ 0) (h : IsRoundingScale (num / den) scale) :
    nearestBits num den = min infinityBits ((scale + 1074).toNat * 2 ^ 52 +
      roundQuotient (atScale num den scale).1 (atScale num den scale).2) := by
  rw [nearestBits_eq hnum, (isRoundingScale_roundingScale hnum hden).unique h]
  rfl

theorem nearestBits_mono
    (hden : den ≠ 0) (hden' : den' ≠ 0) (h : (num : ℚ) / den ≤ num' / den') :
    nearestBits num den ≤ nearestBits num' den' := by
  have hpos := Nat.pos_of_ne_zero hden
  have hpos' := Nat.pos_of_ne_zero hden'
  by_cases hnum : num = 0
  · rw [hnum, nearestBits_zero]
    exact Nat.zero_le _
  · have hnum' : num' ≠ 0 := by
      rintro rfl
      have hquotient : (0 : ℚ) < num / den := by positivity
      rw [Nat.cast_zero, zero_div] at h
      exact absurd h (not_le.2 hquotient)
    have hscale := isRoundingScale_roundingScale hnum hden
    have hscale' := isRoundingScale_roundingScale hnum' hden'
    have hle := hscale.le_of_le hscale' h
    rw [nearestBits_of_isRoundingScale hnum hden hscale,
      nearestBits_of_isRoundingScale hnum' hden' hscale']
    obtain ⟨first, hfirst⟩ : ∃ first, first = roundingScale num den := ⟨_, rfl⟩
    obtain ⟨second, hsecond⟩ : ∃ second, second = roundingScale num' den' := ⟨_, rfl⟩
    rw [← hfirst] at hscale hle ⊢
    rw [← hsecond] at hscale' hle ⊢
    apply min_le_min le_rfl
    rcases Int.lt_or_eq_of_le hle with hlt | rfl
    · have hleast := hscale.least
      have htop := hscale.roundQuotient_le hpos
      have hbottom := hscale'.le_roundQuotient hpos' (by omega)
      have hup : (first + 1074).toNat + 1 ≤ (second + 1074).toNat := by omega
      omega
    · have hmono : roundQuotient (atScale num den first).1 (atScale num den first).2 ≤
          roundQuotient (atScale num' den' first).1 (atScale num' den' first).2 := by
        apply roundQuotient_mono (atScale_pos hpos first) (atScale_pos hpos' first)
        rw [atScale_eq, atScale_eq]
        exact div_le_div_of_nonneg_right h (by positivity)
      omega

theorem nearestBits_congr
    (hden : den ≠ 0) (hden' : den' ≠ 0) (h : (num : ℚ) / den = num' / den') :
    nearestBits num den = nearestBits num' den' :=
  Nat.le_antisymm (nearestBits_mono hden hden' h.le) (nearestBits_mono hden' hden h.ge)

/-- The bits of the number nearest to a value that is not negative. -/
def roundedBits (value : ℚ) : Nat := nearestBits value.num.toNat value.den

theorem cast_num_toNat (hvalue : 0 ≤ value) : (value.num.toNat : ℚ) / value.den = value := by
  have hnum : ((value.num.toNat : Int) : ℚ) = value.num := by
    rw [Int.toNat_of_nonneg (Rat.num_nonneg.2 hvalue)]
  rw [← Int.cast_natCast, hnum, Rat.num_div_den]

theorem nearestBits_eq_roundedBits (hden : den ≠ 0) (h : (num : ℚ) / den = value) :
    nearestBits num den = roundedBits value := by
  have hvalue : 0 ≤ value := by
    rw [← h]
    positivity
  exact nearestBits_congr hden value.den_nz (by rw [h, cast_num_toNat hvalue])

theorem roundedBits_mono (hvalue : 0 ≤ value) (h : value ≤ value') :
    roundedBits value ≤ roundedBits value' :=
  nearestBits_mono value.den_nz value'.den_nz
    (by rwa [cast_num_toNat hvalue, cast_num_toNat (hvalue.trans h)])

theorem roundedBits_zero : roundedBits 0 = 0 := rfl

theorem nearestBits_le (num den : Nat) : nearestBits num den ≤ infinityBits := by
  by_cases hnum : num = 0
  · rw [hnum, nearestBits_zero]
    exact Nat.zero_le _
  · rw [nearestBits_eq hnum]
    exact min_le_left _ _

end Arranger.Decimal
