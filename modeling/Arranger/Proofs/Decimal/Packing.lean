import Arranger.Proofs.Decimal.Bits
import Arranger.Proofs.Decimal.Monotone

/-!
# Rounding and packing

The result of an operation is rounded to the nearest binary64 number and packed.  The mantissa of
the exact value is shifted to its rounding scale, two bits behind it keep what is needed to round
it, and a mantissa that is rounded up to 54 bits is shifted once more.
-/

namespace Arranger.Decimal

open Float.Model (Format UnpackedFloat totalExponent)
open Float.Model.UnpackedFloat (Accuracy ExtendedMantissa Sign decreaseExponent pack
  packComponents packedInfinity roundWithAccuracy shiftToExponent shiftToTargetExponent unpack
  unpackExponent unpackMantissa unpackSign)

/-! ## Shifted mantissas -/

/-- The value of a mantissa and the bit behind it. -/
def halves (m : ExtendedMantissa) : ℚ := m.mantissa + m.roundBit.toNat / 2

/-- A mantissa with two bits behind it is known to be the value up to one half of its unit; the last
bit tells whether something is missing. -/
structure Represents (m : ExtendedMantissa) (value : ℚ) : Prop where
  le : halves m ≤ value
  lt : value < halves m + 1 / 2
  exact_iff : m.stickyBit = false ↔ value = halves m

theorem represents_exact (mantissa : Nat) :
    Represents (.ofMantissaAndAccuracy mantissa .exact) mantissa := by
  have hhalves : halves (.ofMantissaAndAccuracy mantissa .exact) = mantissa := by
    simp [halves, ExtendedMantissa.ofMantissaAndAccuracy]
  exact ⟨hhalves.le, by rw [hhalves]; linarith, by rw [hhalves]; exact iff_of_true rfl rfl⟩

theorem halves_shiftRightOne (m : ExtendedMantissa) : halves m.shiftRightOne = m.mantissa / 2 := by
  have hdivision : (m.mantissa : ℚ) = 2 * (m.mantissa / 2 : Nat) + (m.mantissa % 2 : Nat) := by
    exact_mod_cast (Nat.div_add_mod m.mantissa 2).symm
  have hbit : m.shiftRightOne.roundBit.toNat = m.mantissa % 2 := by
    change (m.mantissa % 2 != 0).toNat = m.mantissa % 2
    rcases Nat.mod_two_eq_zero_or_one m.mantissa with hzero | hone
    · rw [hzero]; rfl
    · rw [hone]; rfl
  rw [halves, hbit]
  change ((m.mantissa / 2 : Nat) : ℚ) + (m.mantissa % 2 : Nat) / 2 = _
  linarith

theorem Represents.shiftRightOne {m : ExtendedMantissa} {value : ℚ} (h : Represents m value) :
    Represents m.shiftRightOne (value / 2) := by
  obtain ⟨hle, hlt, hexact⟩ := h
  have hsticky : m.shiftRightOne.stickyBit = (m.roundBit || m.stickyBit) := rfl
  cases hround : m.roundBit with
  | false =>
      have hhalves : halves m = m.mantissa := by simp [halves, hround]
      rw [hhalves] at hle hlt hexact
      refine ⟨?_, ?_, ?_⟩
      · rw [halves_shiftRightOne]
        linarith
      · rw [halves_shiftRightOne]
        linarith
      · rw [halves_shiftRightOne, hsticky, hround, Bool.false_or, hexact, div_left_inj' two_ne_zero]
  | true =>
      have hhalves : halves m = m.mantissa + 1 / 2 := by simp [halves, hround]
      rw [hhalves] at hle hlt
      refine ⟨?_, ?_, ?_⟩
      · rw [halves_shiftRightOne]
        linarith
      · rw [halves_shiftRightOne]
        linarith
      · rw [halves_shiftRightOne, hsticky, hround, Bool.true_or]
        refine iff_of_false (by decide) ?_
        intro heq
        linarith

theorem Represents.shiftRight {m : ExtendedMantissa} {value : ℚ} (h : Represents m value) (n : Nat) :
    Represents (m >>> n) (value / 2 ^ n) := by
  change Represents (n.repeat ExtendedMantissa.shiftRightOne m) _
  induction n with
  | zero => simpa [Nat.repeat] using h
  | succ n ih =>
      rw [Nat.repeat, pow_succ, ← div_div]
      exact ih.shiftRightOne

theorem Represents.roundQuotient_eq
    {m : ExtendedMantissa} {num den : Nat} (h : Represents m (num / den)) (hden : 0 < den) :
    roundQuotient num den = m.roundedMantissa := by
  obtain ⟨mantissa, roundBit, stickyBit⟩ := m
  obtain ⟨hle, hlt, hexact⟩ := h
  cases roundBit with
  | false =>
      have hhalves : halves ⟨mantissa, false, stickyBit⟩ = mantissa := by simp [halves]
      have hrounded : ExtendedMantissa.roundedMantissa ⟨mantissa, false, stickyBit⟩ = mantissa := by
        cases stickyBit <;> rfl
      rw [hhalves] at hle hlt
      rw [hrounded]
      exact roundQuotient_eq_of_near hden (by linarith) hlt.le (.inr ⟨by linarith, hlt⟩)
  | true =>
      have hhalves : halves ⟨mantissa, true, stickyBit⟩ = mantissa + 1 / 2 := by simp [halves]
      rw [hhalves] at hle hlt hexact
      cases stickyBit with
      | false =>
          have hmiddle : (num : ℚ) / den = mantissa + 1 / 2 := hexact.1 rfl
          change roundQuotient num den = mantissa + mantissa % 2
          rcases Nat.mod_two_eq_zero_or_one mantissa with heven | hodd
          · rw [heven, Nat.add_zero]
            exact roundQuotient_eq_of_near hden (by linarith) hmiddle.le (.inl heven)
          · rw [hodd]
            refine roundQuotient_eq_of_near hden ?_ ?_ (.inl (by omega))
            · push_cast
              linarith
            · push_cast
              linarith
      | true =>
          have hne : (num : ℚ) / den ≠ mantissa + 1 / 2 := fun heq => by simpa using hexact.2 heq
          have habove := lt_of_le_of_ne hle hne.symm
          change roundQuotient num den = mantissa + 1
          refine roundQuotient_eq_of_near hden ?_ ?_ (.inr ⟨?_, ?_⟩)
          all_goals
            push_cast
            linarith

theorem roundedMantissa_shiftToExponent
    {mantissa : Nat} {exponent scale : Int} (hle : exponent ≤ scale) {num den : Nat}
    (hden : 0 < den) (hvalue : (num : ℚ) / den = mantissa * 2 ^ exponent) :
    (shiftToExponent mantissa exponent .exact scale).1.roundedMantissa =
      roundQuotient (atScale num den scale).1 (atScale num den scale).2 := by
  have hshifted := (represents_exact mantissa).shiftRight (scale - exponent).toNat
  symm
  apply Represents.roundQuotient_eq _ (atScale_pos hden scale)
  have hsplit : (2 : ℚ) ^ scale = 2 ^ exponent * 2 ^ (scale - exponent).toNat := by
    rw [← zpow_natCast, ← zpow_add₀ (by norm_num)]
    congr 1
    omega
  have hpower : (2 : ℚ) ^ exponent ≠ 0 := by positivity
  rw [atScale_eq, hvalue, hsplit, mul_comm (2 ^ exponent), mul_div_mul_right _ _ hpower]
  exact hshifted

/-! ## Packed numbers -/

theorem targetExponent_eq (mantissa : Nat) (exponent : Int) :
    Format.binary64.targetExponent (totalExponent mantissa exponent) =
      max ((mantissa.log2 : Int) + 1 + exponent - 53) (-1074) := rfl

theorem isRoundingScale_targetExponent {mantissa : Nat} (hpos : 0 < mantissa) (exponent : Int) :
    IsRoundingScale (mantissa * 2 ^ exponent)
      (Format.binary64.targetExponent (totalExponent mantissa exponent)) := by
  obtain ⟨hlow, hhigh⟩ := log2_bounds (Nat.pos_iff_ne_zero.1 hpos)
  obtain ⟨scale, hscale⟩ : ∃ scale : Int, scale = (mantissa.log2 : Int) + 1 + exponent - 53 :=
    ⟨_, rfl⟩
  have htwo : (2 : ℚ) ≠ 0 := by norm_num
  have hpower : (0 : ℚ) < 2 ^ exponent := by positivity
  have hlt : (mantissa : ℚ) * 2 ^ exponent < 2 ^ 53 * 2 ^ scale := by
    calc (mantissa : ℚ) * 2 ^ exponent < 2 ^ ((mantissa.log2 : Int) + 1) * 2 ^ exponent :=
          mul_lt_mul_of_pos_right hhigh hpower
      _ = 2 ^ (53 : Int) * 2 ^ scale := by
          rw [← zpow_add₀ htwo, ← zpow_add₀ htwo]
          congr 1
          omega
  have hle : (2 : ℚ) ^ 52 * 2 ^ scale ≤ mantissa * 2 ^ exponent := by
    calc (2 : ℚ) ^ (52 : Int) * 2 ^ scale = 2 ^ (mantissa.log2 : Int) * 2 ^ exponent := by
          rw [← zpow_add₀ htwo, ← zpow_add₀ htwo]
          congr 1
          omega
      _ ≤ mantissa * 2 ^ exponent := mul_le_mul_of_nonneg_right hlow hpower.le
  rw [targetExponent_eq, ← hscale, max_comm]
  exact isRoundingScale_max hle hlt

theorem toNat_packedInfinity :
    (packedInfinity Format.binary64 .positive).toNat = infinityBits := rfl

section Packed

variable {mantissa : Nat} {exponent : Int}

theorem toNat_pack_subnormal (hpos : 0 < mantissa) (hlt : mantissa < 2 ^ 52) :
    (pack Format.binary64 (.finite .positive mantissa (-1074) hpos)).toNat = mantissa := by
  have hmantissa : (BitVec.ofNat 52 mantissa).toNat = mantissa := by
    rw [BitVec.toNat_ofNat, Nat.mod_eq_of_lt hlt]
  have hpositive : Sign.positive.toBitVec.toNat = 0 := rfl
  have hpack : pack Format.binary64 (.finite .positive _ (-1074) _) =
      packComponents Format.binary64 .positive 0#11 (BitVec.ofNat 52 mantissa) :=
    pack_subnormal (by rw [hmantissa]; exact hpos) rfl
  simp only [hmantissa] at hpack
  rw [hpack, toNat_packComponents, hpositive, hmantissa]
  simp only [BitVec.toNat_ofNat]
  omega

theorem toNat_pack_overflow (hpos : 0 < mantissa) (hlarge : 972 ≤ exponent) :
    (pack Format.binary64 (.finite .positive mantissa exponent hpos)).toNat = infinityBits := by
  have hbiased : 2 ^ Format.binary64.exponentBits ≤ (exponent + Format.binary64.exponentBias +
      Format.binary64.mantissaBitsWithoutImplicit).toNat + 1 := by
    have hbits : 2 ^ Format.binary64.exponentBits = 2048 := rfl
    have hbias : (Format.binary64.exponentBias : Int) = 1023 := rfl
    have hwidth : (Format.binary64.mantissaBitsWithoutImplicit : Int) = 52 := rfl
    omega
  unfold pack
  dsimp only
  rw [if_pos hbiased, toNat_packedInfinity]

theorem toNat_pack_normal
    (hpos : 0 < mantissa) (hlt : mantissa < 2 ^ 53) (hnormal : 2 ^ 52 ≤ mantissa)
    (hleast : -1074 ≤ exponent) (hmost : exponent ≤ 971) :
    (pack Format.binary64 (.finite .positive mantissa exponent hpos)).toNat =
      (exponent + 1074).toNat * 2 ^ 52 + mantissa := by
  have hpositive : Sign.positive.toBitVec.toNat = 0 := rfl
  have hbiased : (BitVec.ofNat 11 (exponent + 1075).toNat).toNat = (exponent + 1075).toNat := by
    rw [BitVec.toNat_ofNat, Nat.mod_eq_of_lt (by omega)]
  have hexponent : exponent = ((BitVec.ofNat 11 (exponent + 1075).toNat).toNat : Int) - 1075 := by
    rw [hbiased]
    omega
  have hmantissa : (BitVec.ofNat 52 (mantissa - 2 ^ 52)).toNat = mantissa - 2 ^ 52 := by
    rw [BitVec.toNat_ofNat, Nat.mod_eq_of_lt (by omega)]
  have hpack : pack Format.binary64 (.finite .positive mantissa exponent hpos) =
      packComponents Format.binary64 .positive (BitVec.ofNat 11 (exponent + 1075).toNat)
        (BitVec.ofNat 52 (mantissa - 2 ^ 52)) :=
    pack_normal (by rw [hbiased]; omega) hpos (by rw [hmantissa]; omega) hexponent
  rw [hpack, toNat_packComponents, hpositive, hbiased, hmantissa]
  omega

/-- The bits of a number without a sign; one beyond the greatest scale is infinite. -/
theorem toNat_pack_finite
    (hpos : 0 < mantissa) (hlt : mantissa < 2 ^ 53) (hleast : -1074 ≤ exponent)
    (hnormal : exponent = -1074 ∨ 2 ^ 52 ≤ mantissa) :
    (pack Format.binary64 (.finite .positive mantissa exponent hpos)).toNat =
      min infinityBits ((exponent + 1074).toNat * 2 ^ 52 + mantissa) := by
  have hinfinity : infinityBits = 2047 * 2 ^ 52 := rfl
  rcases Nat.lt_or_ge mantissa (2 ^ 52) with hsubnormal | hfull
  · obtain rfl : exponent = -1074 := hnormal.resolve_right (by omega)
    rw [toNat_pack_subnormal hpos hsubnormal]
    omega
  · rcases Int.lt_or_le exponent 972 with hsmall | hlarge
    · rw [toNat_pack_normal hpos hlt hfull hleast (by omega)]
      omega
    · rw [toNat_pack_overflow hpos hlarge]
      omega

end Packed

theorem shiftToTargetExponent_of_le
    {mantissa : Nat} {exponent : Int} (hle : mantissa ≤ 2 ^ 53) (hleast : -1074 ≤ exponent) :
    ((shiftToTargetExponent Format.binary64 mantissa exponent .exact).1.mantissa,
        (shiftToTargetExponent Format.binary64 mantissa exponent .exact).2) =
      if mantissa = 2 ^ 53 then (2 ^ 52, exponent + 1) else (mantissa, exponent) := by
  by_cases htop : mantissa = 2 ^ 53
  · have htarget : Format.binary64.targetExponent (totalExponent mantissa exponent) =
        exponent + 1 := by
      rw [targetExponent_eq, htop, Nat.log2_two_pow]
      omega
    have hshift : (exponent + 1 - exponent).toNat = 1 := by omega
    rw [if_pos htop]
    unfold shiftToTargetExponent shiftToExponent
    dsimp only
    rw [htarget, hshift, htop]
    rfl
  · have hlog : mantissa.log2 < 53 := by
      by_cases hzero : mantissa = 0
      · rw [hzero]
        decide
      · exact (Nat.log2_lt hzero).2 (by omega)
    have hshift : (Format.binary64.targetExponent (totalExponent mantissa exponent) -
        exponent).toNat = 0 := by
      rw [targetExponent_eq]
      omega
    rw [if_neg htop]
    unfold shiftToTargetExponent shiftToExponent
    dsimp only
    rw [hshift, Nat.cast_zero, add_zero]
    rfl

/-- A rounded mantissa is packed where it stands, or a scale higher if it was rounded up to 54
bits. -/
theorem toNat_pack_reshifted
    {rounded : Nat} {scale : Int} (hle : rounded ≤ 2 ^ 53) (hleast : -1074 ≤ scale)
    (hbottom : scale ≠ -1074 → 2 ^ 52 ≤ rounded) {final : ExtendedMantissa} {finalExponent : Int}
    (hfinal : shiftToTargetExponent Format.binary64 rounded scale .exact = (final, finalExponent)) :
    (pack Format.binary64 (if h : final.mantissa = 0 then .zero .positive
      else .finite .positive final.mantissa finalExponent (Nat.pos_of_ne_zero h))).toNat =
      min infinityBits ((scale + 1074).toNat * 2 ^ 52 + rounded) := by
  have hshifted := shiftToTargetExponent_of_le hle hleast
  rw [hfinal] at hshifted
  dsimp only at hshifted
  split at hshifted
  · next hcarry =>
    -- the mantissa that is one bit too long is the least one of the next scale
    rw [Prod.mk.injEq] at hshifted
    obtain ⟨hmantissa, rfl⟩ := hshifted
    have hne : final.mantissa ≠ 0 := by omega
    rw [dif_neg hne, toNat_pack_finite _ (by omega) (by omega) (.inr hmantissa.ge), hmantissa,
      hcarry]
    omega
  · next hstay =>
    rw [Prod.mk.injEq] at hshifted
    obtain ⟨hmantissa, rfl⟩ := hshifted
    by_cases hzero : final.mantissa = 0
    · have hscaleLeast : finalExponent = -1074 := by
        by_contra hne
        have hfull := hbottom hne
        omega
      rw [dif_pos hzero, ← hmantissa, hzero, hscaleLeast]
      rfl
    · rw [dif_neg hzero, toNat_pack_finite _ (by omega) hleast (by omega), hmantissa]

/-- A value is rounded to the nearest number, provided that its mantissa is not to be lengthened. -/
theorem toNat_pack_roundWithAccuracy
    {mantissa : Nat} {exponent : Int} (hpos : 0 < mantissa)
    (hle : exponent ≤ Format.binary64.targetExponent (totalExponent mantissa exponent))
    {num den : Nat} (hden : 0 < den) (hvalue : (num : ℚ) / den = mantissa * 2 ^ exponent) :
    (pack Format.binary64
        (roundWithAccuracy Format.binary64 .positive mantissa exponent .exact)).toNat =
      nearestBits num den := by
  have hscale := isRoundingScale_targetExponent hpos exponent
  obtain ⟨scale, hscaleEq⟩ : ∃ scale, scale =
    Format.binary64.targetExponent (totalExponent mantissa exponent) := ⟨_, rfl⟩
  have hvaluePos : (0 : ℚ) < num / den := by
    rw [hvalue]
    positivity
  have hnum : num ≠ 0 := by
    rintro rfl
    rw [Nat.cast_zero, zero_div] at hvaluePos
    exact lt_irrefl _ hvaluePos
  rw [← hscaleEq] at hle hscale
  rw [← hvalue] at hscale
  rw [nearestBits_of_isRoundingScale hnum (Nat.pos_iff_ne_zero.1 hden) hscale]
  have htop := hscale.roundQuotient_le hden
  have hbottom := hscale.le_roundQuotient hden
  rw [← roundedMantissa_shiftToExponent hle hden hvalue] at htop hbottom ⊢
  have hexponent : (shiftToExponent mantissa exponent .exact scale).2 = scale := by
    unfold shiftToExponent
    dsimp only
    omega
  unfold roundWithAccuracy
  rw [shiftToTargetExponent, ← hscaleEq]
  obtain ⟨⟨shifted, found⟩, hfound⟩ : ∃ result, result =
    shiftToExponent mantissa exponent .exact scale := ⟨_, rfl⟩
  rw [← hfound] at htop hbottom hexponent ⊢
  subst hexponent
  exact toNat_pack_reshifted htop hscale.least hbottom rfl

theorem log2_shiftLeft {n : Nat} (hn : n ≠ 0) (k : Nat) : (n <<< k).log2 = n.log2 + k := by
  induction k with
  | zero => rfl
  | succ k ih =>
      have hne : n <<< k ≠ 0 := by
        rw [Nat.shiftLeft_eq]
        positivity
      rw [Nat.shiftLeft_succ, Nat.log2_two_mul hne, ih]
      omega

theorem toNat_pack_round
    {mantissa : Nat} {exponent : Int} (hpos : 0 < mantissa)
    {num den : Nat} (hden : 0 < den) (hvalue : (num : ℚ) / den = mantissa * 2 ^ exponent) :
    (pack Format.binary64
        (UnpackedFloat.round Format.binary64 .positive mantissa exponent)).toNat =
      nearestBits num den := by
  obtain ⟨k, hk⟩ : ∃ k, k =
    (exponent - Format.binary64.targetExponent (totalExponent mantissa exponent)).toNat := ⟨_, rfl⟩
  have hlonger : 0 < mantissa <<< k := by
    rw [Nat.shiftLeft_eq]
    positivity
  have htotal : totalExponent (mantissa <<< k) (exponent - k) = totalExponent mantissa exponent := by
    unfold totalExponent
    rw [log2_shiftLeft (Nat.pos_iff_ne_zero.1 hpos)]
    omega
  have hsame : (mantissa : ℚ) * 2 ^ exponent = (mantissa <<< k : Nat) * 2 ^ (exponent - k) := by
    rw [Nat.shiftLeft_eq, Nat.cast_mul, Nat.cast_pow, Nat.cast_ofNat, mul_assoc, ← zpow_natCast,
      ← zpow_add₀ (by norm_num)]
    congr 2
    omega
  unfold UnpackedFloat.round decreaseExponent
  dsimp only
  rw [← hk]
  exact toNat_pack_roundWithAccuracy hlonger (by rw [htotal]; omega) hden (hvalue.trans hsame)

end Arranger.Decimal
