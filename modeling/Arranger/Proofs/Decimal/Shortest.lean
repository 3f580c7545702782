import Arranger.Proofs.Decimal.Rounding

/-!
# The shortest decimal rounds back

The shortest decimal of a number lies in the rounding interval of the number: a decimal that was
tried was tested for it, and one with seventeen digits is close enough.
-/

namespace Arranger.Decimal

/-- The value of a decimal. -/
def Scientific.value (decimal : Scientific) : ℚ := decimal.digits * 10 ^ decimal.exponent

/-! ## Decimals that were tested -/

theorem le_candidate_iff {num den : Nat} (hden : 0 < den) (grid : Int) (candidate : Nat) :
    (onGrid num den grid).1 ≤ candidate * (onGrid num den grid).2 ↔
      (num : ℚ) / den ≤ candidate * 10 ^ grid := by
  have hpos : (0 : ℚ) < (onGrid num den grid).2 := by exact_mod_cast onGrid_pos hden grid
  have hpower : (0 : ℚ) < 10 ^ grid := by positivity
  rw [← div_le_iff₀ hpower, ← onGrid_eq, div_le_iff₀ hpos]
  exact_mod_cast Iff.rfl

theorem candidate_le_iff {num den : Nat} (hden : 0 < den) (grid : Int) (candidate : Nat) :
    candidate * (onGrid num den grid).2 ≤ (onGrid num den grid).1 ↔
      (candidate : ℚ) * 10 ^ grid ≤ num / den := by
  have hpos : (0 : ℚ) < (onGrid num den grid).2 := by exact_mod_cast onGrid_pos hden grid
  have hpower : (0 : ℚ) < 10 ^ grid := by positivity
  rw [← le_div_iff₀ hpower, ← onGrid_eq, le_div_iff₀ hpos]
  exact_mod_cast Iff.rfl

/-- The ends of the interval, in quarters of a unit. -/
theorem quarters_eq (quarters : Nat) (exponent : Int) :
    ((quarters * (scaled 1 (exponent - 2)).1 : Nat) : ℚ) / (scaled 1 (exponent - 2)).2 =
      quarters / 4 * 2 ^ exponent := by
  have htwo : (2 : ℚ) ≠ 0 := by norm_num
  have hunit := scaled_eq 1 (exponent - 2)
  rw [Nat.cast_mul, mul_div_assoc, hunit, zpow_sub₀ htwo]
  push_cast
  ring

theorem le_low_roundingInterval (mantissa : Nat) (exponent : Int) :
    (mantissa : ℚ) - 1 / 2 ≤ (roundingInterval mantissa exponent).low / 4 := by
  have hnat : 4 * mantissa ≤ (roundingInterval mantissa exponent).low + 2 := by
    rw [roundingInterval]
    dsimp only
    split <;> omega
  have hcast : (4 : ℚ) * mantissa ≤ (roundingInterval mantissa exponent).low + 2 := by
    exact_mod_cast hnat
  linarith

theorem high_roundingInterval (mantissa : Nat) (exponent : Int) :
    ((roundingInterval mantissa exponent).high : ℚ) / 4 = mantissa + 1 / 2 := by
  rw [roundingInterval]
  push_cast
  ring

theorem low_roundingInterval_power {exponent : Int} (hexponent : -1074 < exponent) :
    (2 : ℚ) ^ 52 - 1 / 4 ≤ (roundingInterval (2 ^ 52) exponent).low / 4 := by
  have hlow : (roundingInterval (2 ^ 52) exponent).low = 4 * 2 ^ 52 - 1 := by
    rw [roundingInterval]
    simp [hexponent]
  rw [hlow]
  norm_num

/-- A decimal lies in the interval if it is neither below its lower end nor above its upper one, or
strictly between them. -/
theorem readsBack_cases
    {mantissa : Nat} {exponent grid : Int} {candidate : Nat}
    (h : readsBack mantissa exponent grid candidate = true) :
    let low : ℚ := (roundingInterval mantissa exponent).low / 4 * 2 ^ exponent
    let high : ℚ := (mantissa + 1 / 2) * 2 ^ exponent
    (mantissa % 2 = 0 ∧ low ≤ candidate * 10 ^ grid ∧ candidate * 10 ^ grid ≤ high) ∨
      (low < candidate * 10 ^ grid ∧ candidate * 10 ^ grid < high) := by
  have hunitPos := scaled_pos 1 (exponent - 2)
  unfold readsBack at h
  dsimp only at h
  split at h
  · next hclosed =>
    simp only [Bool.and_eq_true, decide_eq_true_eq] at h
    rw [le_candidate_iff hunitPos, candidate_le_iff hunitPos, quarters_eq, quarters_eq,
      high_roundingInterval] at h
    exact .inl ⟨of_decide_eq_true hclosed, h⟩
  · simp only [Bool.and_eq_true, decide_eq_true_eq] at h
    rw [← not_le, ← not_le, le_candidate_iff hunitPos, candidate_le_iff hunitPos, quarters_eq,
      quarters_eq, high_roundingInterval, not_le, not_le] at h
    exact .inr h

theorem roundsTo_of_readsBack
    {mantissa : Nat} {exponent grid : Int} {candidate : Nat}
    (h : readsBack mantissa exponent grid candidate = true) :
    RoundsTo mantissa exponent (candidate * 10 ^ grid) := by
  have hpower : (0 : ℚ) < 2 ^ exponent := by positivity
  have hlow := mul_le_mul_of_nonneg_right (le_low_roundingInterval mantissa exponent) hpower.le
  have hleast : mantissa = 2 ^ 52 → -1074 < exponent → (2 ^ 52 - 1 / 4) * (2 : ℚ) ^ exponent ≤
      (roundingInterval mantissa exponent).low / 4 * 2 ^ exponent := by
    rintro rfl hexponent
    exact mul_le_mul_of_nonneg_right (low_roundingInterval_power hexponent) hpower.le
  rcases readsBack_cases h with ⟨heven, habove, hbelow⟩ | ⟨habove, hbelow⟩
  · exact ⟨hlow.trans habove, hbelow, .inl heven, fun hmantissa hexponent =>
      (hleast hmantissa hexponent).trans habove⟩
  · exact ⟨hlow.trans habove.le, hbelow.le, .inr ⟨hlow.trans_lt habove, hbelow⟩,
      fun hmantissa hexponent => (hleast hmantissa hexponent).trans habove.le⟩

/-! ## The leading digit -/

/-- The exponent of a power of ten that is at most a power of two, for a given binary size. -/
def isBelow (size : Int) : Bool :=
  match (size * 30103).fdiv 100000 - 1, size - 1 with
  | .ofNat ten, .ofNat two => 10 ^ ten ≤ 2 ^ two
  | .negSucc ten, .negSucc two => 2 ^ (two + 1) ≤ 10 ^ (ten + 1)
  | .negSucc _, .ofNat _ => true
  | .ofNat _, .negSucc _ => false

theorem isBelow_of_size : ((List.range 2098).all fun k => isBelow ((k : Int) - 1074)) = true := by
  decide +kernel

theorem le_of_isBelow {size : Int} (h : isBelow size = true) :
    (10 : ℚ) ^ ((size * 30103).fdiv 100000 - 1) ≤ 2 ^ (size - 1) := by
  unfold isBelow at h
  split at h
  · next ten two hten htwo =>
    rw [hten, htwo, Int.ofNat_eq_natCast, Int.ofNat_eq_natCast, zpow_natCast, zpow_natCast]
    have hle := of_decide_eq_true h
    exact_mod_cast hle
  · next ten two hten htwo =>
    rw [hten, htwo, zpow_negSucc, zpow_negSucc]
    have hle := of_decide_eq_true h
    apply inv_anti₀ (by positivity)
    exact_mod_cast hle
  · next ten two hten htwo =>
    rw [hten, htwo, Int.ofNat_eq_natCast, zpow_natCast, zpow_negSucc]
    calc ((10 : ℚ) ^ (ten + 1))⁻¹ ≤ 1 := inv_le_one_of_one_le₀ (one_le_pow₀ (by norm_num))
      _ ≤ 2 ^ two := one_le_pow₀ (by norm_num)
  · exact absurd h (by decide)

theorem reaches_iff {num den : Nat} (hden : 0 < den) (exponent : Int) :
    (onGrid num den exponent).2 ≤ (onGrid num den exponent).1 ↔ (10 : ℚ) ^ exponent ≤ num / den := by
  have hone := @candidate_le_iff num den hden exponent 1
  rw [Nat.one_mul, Nat.cast_one, one_mul] at hone
  exact hone

theorem pow_leadingExponent_le
    {num den : Nat} (hnum : num ≠ 0) (hden : den ≠ 0)
    (hleast : -1074 ≤ (num.log2 : Int) - den.log2) (hmost : (num.log2 : Int) - den.log2 ≤ 1023) :
    (10 : ℚ) ^ leadingExponent num den ≤ num / den := by
  obtain ⟨size, hsize⟩ : ∃ size : Int, size = (num.log2 : Int) - den.log2 := ⟨_, rfl⟩
  have hpos := Nat.pos_of_ne_zero hden
  unfold leadingExponent
  rw [← hsize]
  dsimp only
  split
  · next hreached => exact (reaches_iff hpos _).1 (of_decide_eq_true hreached)
  · split
    · next hreached => exact (reaches_iff hpos _).1 (of_decide_eq_true hreached)
    · have hbelow : isBelow size = true := by
        have hall := List.all_eq_true.1 isBelow_of_size (size + 1074).toNat
          (List.mem_range.2 (by omega))
        have hplace : (((size + 1074).toNat : Nat) : Int) - 1074 = size := by omega
        rwa [hplace] at hall
      have hlow := (size_bounds hnum hden).1
      rw [← hsize] at hlow
      exact (le_of_isBelow hbelow).trans hlow.le

theorem IsSize.scaled_ne_zero {mantissa : Nat} {exponent : Int} (h : IsSize mantissa exponent) :
    (scaled mantissa exponent).1 ≠ 0 := by
  have hpos := h.pos
  cases exponent with
  | ofNat k =>
      have hpower : 0 < Nat.pow 2 k := Nat.pow_pos (by decide)
      exact Nat.pos_iff_ne_zero.1 (Nat.mul_pos hpos hpower)
  | negSucc k => exact Nat.pos_iff_ne_zero.1 hpos

theorem IsSize.log2_bounds {mantissa : Nat} {exponent : Int} (h : IsSize mantissa exponent) :
    -1074 ≤ ((scaled mantissa exponent).1.log2 : Int) - (scaled mantissa exponent).2.log2 ∧
      ((scaled mantissa exponent).1.log2 : Int) - (scaled mantissa exponent).2.log2 ≤ 1023 := by
  have hne := h.scaled_ne_zero
  have hlt := h.lt
  have hleast := h.least
  have hmost := h.most
  cases exponent with
  | ofNat k =>
      have hk : k ≤ 971 := by simpa using hmost
      have hbound : mantissa * 2 ^ k < 2 ^ (53 + k) := by
        rw [Nat.pow_add]
        exact Nat.mul_lt_mul_of_pos_right hlt (Nat.pow_pos (by decide))
      have hlog := (Nat.log2_lt hne).2 hbound
      have hone : Nat.log2 1 = 0 := by decide
      simp only [scaled] at hlog ⊢
      rw [hone]
      omega
  | negSucc k =>
      have hk : k + 1 ≤ 1074 := by omega
      have hlog := (Nat.log2_lt hne).2 (show mantissa < 2 ^ 53 from hlt)
      have hpower : Nat.log2 (Nat.pow 2 (k + 1)) = k + 1 := Nat.log2_two_pow
      simp only [scaled] at hlog ⊢
      rw [hpower]
      omega

/-! ## Seventeen digits -/

theorem roundQuotient_near {num den : Nat} (hden : 0 < den) :
    |(roundQuotient num den : ℚ) - num / den| ≤ 1 / 2 := by
  have hpos : (0 : ℚ) < den := by exact_mod_cast hden
  have hnat : 2 * num ≤ 2 * (roundQuotient num den * den) + den ∧
      2 * (roundQuotient num den * den) ≤ 2 * num + den := by
    have hdivision := Nat.div_add_mod num den
    have hless := Nat.mod_lt num hden
    rw [Nat.mul_comm] at hdivision
    unfold roundQuotient
    dsimp only
    split
    · omega
    · split
      · rw [Nat.add_mul, Nat.one_mul]
        omega
      · split
        · omega
        · rw [Nat.add_mul, Nat.one_mul]
          omega
  have hlow : 2 * (num : ℚ) ≤ 2 * (roundQuotient num den * den) + den := by exact_mod_cast hnat.1
  have hhigh : 2 * ((roundQuotient num den : ℚ) * den) ≤ 2 * num + den := by exact_mod_cast hnat.2
  rw [abs_le]
  constructor
  · rw [le_sub_iff_add_le, ← le_sub_iff_add_le', div_le_iff₀ hpos]
    linarith
  · rw [sub_le_iff_le_add', ← sub_le_iff_le_add, le_div_iff₀ hpos]
    linarith

theorem nearest_on_grid {num den : Nat} (hden : 0 < den) (grid : Int) :
    |(roundQuotient (onGrid num den grid).1 (onGrid num den grid).2 : ℚ) * 10 ^ grid - num / den| ≤
      10 ^ grid / 2 := by
  have hpower : (0 : ℚ) < 10 ^ grid := by positivity
  have hpos : 0 < (onGrid num den grid).2 := onGrid_pos hden grid
  have hnear : |(roundQuotient (onGrid num den grid).1 (onGrid num den grid).2 : ℚ) -
      (onGrid num den grid).1 / (onGrid num den grid).2| ≤ 1 / 2 := roundQuotient_near hpos
  rw [onGrid_eq] at hnear
  have hscale := mul_le_mul_of_nonneg_right hnear hpower.le
  rw [← abs_of_pos hpower, ← abs_mul, abs_of_pos hpower, sub_mul, div_mul_cancel₀ _ hpower.ne'] at hscale
  linarith

/-- A decimal is found by its test, or stands on the last grid. -/
theorem firstOnGrids_cases
    (num den : Nat) (fits : Int → Nat → Bool) (grids : Nat) (exponent : Int) :
    let found := firstOnGrids num den fits grids exponent
    fits found.exponent found.digits = true ∨
      found.exponent = exponent - grids ∧
        found.digits = roundQuotient (onGrid num den (exponent - grids)).1
          (onGrid num den (exponent - grids)).2 := by
  induction grids generalizing exponent with
  | zero =>
      right
      simp only [firstOnGrids, Nat.cast_zero, sub_zero, and_self]
  | succ grids ih =>
      simp only [firstOnGrids]
      split
      · next hfits => exact .inl hfits
      · split
        · next hfits => exact .inl hfits
        · split
          · next hfits => exact .inl hfits
          · have hrest := ih (exponent - 1)
            have hgrid : exponent - 1 - (grids : Int) = exponent - ((grids + 1 : Nat) : Int) := by
              omega
            rw [hgrid] at hrest
            exact hrest

/-- A decimal within half a unit of the seventeenth digit rounds to the number. -/
theorem IsSize.roundsTo_of_seventeen
    {mantissa : Nat} {exponent leading : Int} {value : ℚ} (h : IsSize mantissa exponent)
    (hleading : (10 : ℚ) ^ leading ≤ mantissa * 2 ^ exponent)
    (hnear : |value - mantissa * 2 ^ exponent| ≤ 10 ^ (leading - 16) / 2) :
    RoundsTo mantissa exponent value := by
  have hpower : (0 : ℚ) < 2 ^ exponent := by positivity
  have hgrid : (10 : ℚ) ^ (leading - 16) = 10 ^ leading / 10 ^ 16 := by
    rw [zpow_sub₀ (by norm_num)]
    norm_num
  have hbound : (mantissa : ℚ) < 2 ^ 53 := by exact_mod_cast h.lt
  have hsmall : (mantissa : ℚ) * 2 ^ exponent < 2 ^ 53 * 2 ^ exponent :=
    mul_lt_mul_of_pos_right hbound hpower
  rw [hgrid, abs_le] at hnear
  obtain ⟨hlow, hhigh⟩ := hnear
  have hleft : (mantissa - 1 / 2) * (2 : ℚ) ^ exponent < value := by linarith
  have hright : value < (mantissa + 1 / 2) * (2 : ℚ) ^ exponent := by linarith
  refine ⟨hleft.le, hright.le, .inr ⟨hleft, hright⟩, ?_⟩
  intro hmantissa hexponent
  have hcast : (mantissa : ℚ) = 2 ^ 52 := by exact_mod_cast hmantissa
  rw [hcast] at hleading hlow
  linarith

/-! ## The shortest decimal -/

theorem IsSize.roundsTo_shortest {mantissa : Nat} {exponent : Int} (h : IsSize mantissa exponent) :
    RoundsTo mantissa exponent (shortest mantissa exponent).value := by
  obtain ⟨hleast, hmost⟩ := h.log2_bounds
  have hden := scaled_pos mantissa exponent
  have hleading := pow_leadingExponent_le h.scaled_ne_zero (Nat.pos_iff_ne_zero.1 hden) hleast hmost
  rw [scaled_eq] at hleading
  have hfound : shortest mantissa exponent =
      firstOnGrids (scaled mantissa exponent).1 (scaled mantissa exponent).2
        (readsBack mantissa exponent) 16
        (leadingExponent (scaled mantissa exponent).1 (scaled mantissa exponent).2) := rfl
  rcases firstOnGrids_cases (scaled mantissa exponent).1 (scaled mantissa exponent).2
    (readsBack mantissa exponent) 16
    (leadingExponent (scaled mantissa exponent).1 (scaled mantissa exponent).2) with hfits | ⟨hgrid, hdigits⟩
  · rw [← hfound] at hfits
    exact roundsTo_of_readsBack hfits
  · rw [← hfound] at hgrid hdigits
    apply h.roundsTo_of_seventeen hleading
    have hnear := @nearest_on_grid (scaled mantissa exponent).1 (scaled mantissa exponent).2 hden
      (leadingExponent (scaled mantissa exponent).1 (scaled mantissa exponent).2 - (16 : Nat))
    rw [scaled_eq, ← hdigits] at hnear
    rw [Scientific.value, hgrid]
    exact hnear

theorem IsSize.digits_pos {mantissa : Nat} {exponent : Int} (h : IsSize mantissa exponent) :
    0 < (shortest mantissa exponent).digits := by
  have hvalue := h.roundsTo_shortest.pos h.pos
  rw [Nat.pos_iff_ne_zero]
  intro hzero
  rw [Scientific.value, hzero, Nat.cast_zero, zero_mul] at hvalue
  exact lt_irrefl _ hvalue

end Arranger.Decimal
