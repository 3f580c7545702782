import Arranger.Proofs.Decimal.Arithmetic

/-!
# Exact values

A finite number has an exact rational value.  Rational numbers are rounded to whole ones as finite
numbers are, and the greater one is not rounded to the lesser whole number.  A number that is not
below zero has no sign, but for one zero, which makes no difference in a sum.
-/

namespace Arranger.Decimal

open Float.Model (Format UnpackedFloat)

/-! ## Rounding to whole numbers -/

/-- The nearest whole number to a rational one, and of two the even one. -/
def roundHalfEven (value : ℚ) : Int :=
  let size : Nat := roundQuotient value.num.natAbs value.den
  if value < 0 then -size else size

variable {value value' : ℚ}

theorem roundHalfEven_of_nonneg (h : 0 ≤ value) :
    roundHalfEven value = roundQuotient value.num.toNat value.den := by
  have hnum := Int.natAbs_of_nonneg (Rat.num_nonneg.2 h)
  have hsame : value.num.natAbs = value.num.toNat := by omega
  rw [roundHalfEven, if_neg (not_lt.2 h), hsame]

theorem roundHalfEven_nonneg (h : 0 ≤ value) : 0 ≤ roundHalfEven value := by
  rw [roundHalfEven_of_nonneg h]
  exact Int.natCast_nonneg _

theorem roundHalfEven_neg (value : ℚ) : roundHalfEven (-value) = -roundHalfEven value := by
  rcases lt_trichotomy value 0 with h | rfl | h
  · have hneg : ¬-value < 0 := by linarith
    simp [roundHalfEven, h, hneg]
  · rfl
  · have hneg : -value < 0 := by linarith
    simp [roundHalfEven, h.le, hneg]

theorem roundHalfEven_mono (h : value ≤ value') : roundHalfEven value ≤ roundHalfEven value' := by
  have hmono : ∀ {q r : ℚ}, 0 ≤ q → q ≤ r → roundHalfEven q ≤ roundHalfEven r := by
    intro q r hq hle
    have hr := hq.trans hle
    rw [roundHalfEven_of_nonneg hq, roundHalfEven_of_nonneg hr]
    have hnat : roundQuotient q.num.toNat q.den ≤ roundQuotient r.num.toNat r.den := by
      apply roundQuotient_mono q.den_pos r.den_pos
      rwa [cast_num_toNat hq, cast_num_toNat hr]
    exact_mod_cast hnat
  rcases le_or_gt 0 value with hvalue | hvalue
  · exact hmono hvalue h
  · rcases le_or_gt value' 0 with hvalue' | hvalue'
    · have hflipped := hmono (neg_nonneg.2 hvalue') (neg_le_neg h)
      rw [roundHalfEven_neg, roundHalfEven_neg] at hflipped
      exact neg_le_neg_iff.1 hflipped
    · have hlow := roundHalfEven_nonneg (neg_nonneg.2 hvalue.le)
      have hhigh := roundHalfEven_nonneg hvalue'.le
      rw [roundHalfEven_neg] at hlow
      omega

/-! ## Exact values -/

/-- The value of a finite number. -/
def exactValue? (x : Float) : Option ℚ :=
  match decode x with
  | .finite negative mantissa exponent =>
      some ((if negative then -1 else 1) * mantissa * 2 ^ exponent)
  | .infinite _ => none
  | .nan => none

variable {x y : Float} {i : Int} {n : Nat}

theorem HasValue.exactValue?_eq (h : HasValue x value) : exactValue? x = some value := by
  obtain ⟨mantissa, exponent, hdecode, rfl⟩ := h
  simp [exactValue?, hdecode]

/-- The nearest whole number to a finite number is that to its exact value. -/
theorem nearestWhole_of_exactValue? (h : exactValue? x = some value) :
    nearestWhole x = .ok (roundHalfEven value) := by
  have hsize : ∀ (mantissa : Nat) (exponent : Int),
      (roundQuotient (scaled mantissa exponent).1 (scaled mantissa exponent).2 : Int) =
        roundHalfEven (mantissa * 2 ^ exponent) := by
    intro mantissa exponent
    have hnonneg : (0 : ℚ) ≤ mantissa * 2 ^ exponent := by positivity
    rw [roundHalfEven_of_nonneg hnonneg, Int.natCast_inj]
    apply roundQuotient_congr (scaled_pos _ _) (Rat.den_pos _)
    rw [scaled_eq, cast_num_toNat hnonneg]
  unfold exactValue? at h
  unfold nearestWhole
  cases hdecode : decode x with
  | nan => simp [hdecode] at h
  | infinite negative => simp [hdecode] at h
  | finite negative mantissa exponent =>
      simp only [hdecode, Option.some.injEq] at h
      rw [← h]
      cases negative with
      | false => simp [roundScaled, hsize]
      | true => simp [roundScaled, hsize, roundHalfEven_neg]

/-! ## Numbers that are not negative -/

theorem lt_iff (x y : Float) :
    x < y ↔ UnpackedFloat.lt (decode x).unpacked (decode y).unpacked = true := by
  rw [← unpack_eq, ← unpack_eq]
  exact decide_eq_true_iff

/-- What is not below zero has no sign, or it is the zero that has one. -/
theorem isUnsigned_or_of_not_lt (h : ¬x < 0.0) :
    IsUnsigned x ∨ ∃ exponent, decode x = .finite true 0 exponent := by
  have hzero : (decode 0.0).unpacked = .zero .positive := rfl
  rw [lt_iff, hzero] at h
  cases hdecode : decode x with
  | nan => exact .inl (.undefined hdecode)
  | infinite negative =>
      cases negative with
      | false => exact .inl (.infinite hdecode)
      | true =>
          rw [hdecode] at h
          exact absurd rfl h
  | finite negative mantissa exponent =>
      cases negative with
      | false => exact .inl (.finite ⟨_, _, hdecode, rfl⟩)
      | true =>
          rcases Nat.eq_zero_or_pos mantissa with rfl | hpos
          · exact .inr ⟨exponent, rfl⟩
          · rw [hdecode, Binary64.unpacked, dif_pos hpos] at h
            exact absurd rfl h

theorem nonneg_of_exactValue? (hx : ¬x < 0.0) (h : exactValue? x = some value) : 0 ≤ value := by
  rcases isUnsigned_or_of_not_lt hx with hx | ⟨exponent, hzero⟩
  · cases hx with
    | undefined hx => simp [exactValue?, hx] at h
    | infinite hx => simp [exactValue?, hx] at h
    | finite hx =>
        rw [hx.exactValue?_eq, Option.some.injEq] at h
        exact h ▸ hx.nonneg
  · have hvalue : value = 0 := by simpa [exactValue?, hzero, eq_comm] using h
    exact hvalue.ge

theorem unpacked_add_negativeZero (u : UnpackedFloat) :
    UnpackedFloat.add Format.binary64 u (.zero .negative) = u := by
  cases u with
  | notANumber => rfl
  | infinity sign => rfl
  | zero sign => cases sign <;> rfl
  | finite sign mantissa exponent hpos => rfl

theorem add_negativeZero {exponent : Int} (hy : decode y = .finite true 0 exponent) :
    x + y = x := by
  have hzero : (decode y).unpacked = .zero .negative := by
    rw [hy]
    rfl
  have hbits : (x + y).toBits = x.toBits := by
    apply UInt64.toBitVec_inj.1
    rw [toBitVec_add, hzero, unpacked_add_negativeZero, pack_unpacked]
  rw [← ofBits_toBits (x + y), hbits, ofBits_toBits]

theorem IsUnsigned.add_of_not_lt (hx : IsUnsigned x) (hy : ¬y < 0.0) : IsUnsigned (x + y) := by
  rcases isUnsigned_or_of_not_lt hy with hy | ⟨_, hzero⟩
  · exact hx.add hy
  · rwa [add_negativeZero hzero]

theorem HasValue.of_add_of_not_lt {sum : ℚ} (hx : IsUnsigned x) (hy : ¬y < 0.0)
    (h : HasValue (x + y) sum) : ∃ value, HasValue x value ∧ value ≤ sum := by
  rcases isUnsigned_or_of_not_lt hy with hy | ⟨_, hzero⟩
  · exact h.of_add hx hy
  · rw [add_negativeZero hzero] at h
    exact ⟨sum, h, le_rfl⟩

/-! ## Whole numbers as floating ones -/

/-- Bits that are not above those of infinity are the bits of a number. -/
theorem toNat_toBits_ofBits (h : n ≤ infinityBits) :
    (Float.ofBits (UInt64.ofNat n)).toBits.toNat = n := by
  have hinfinity : infinityBits = 2047 * 2 ^ 52 := rfl
  have hbits : (UInt64.ofNat n).toBitVec.toNat = n := by
    change (UInt64.ofNat n).toNat = n
    rw [UInt64.toNat_ofNat']
    omega
  have hvalid : Format.binary64.Valid (UInt64.ofNat n).toBitVec := by
    constructor
    intro hexponent hmantissa
    exfalso
    have hparts := congrArg BitVec.toNat (packComponents_unpack (UInt64.ofNat n).toBitVec)
    have hfull : (@UnpackedFloat.unpackExponent Format.binary64
        (UInt64.ofNat n).toBitVec).toNat = 2047 := by
      rw [hexponent]
      rfl
    rw [toNat_packComponents, hbits, hfull] at hparts
    apply hmantissa
    apply BitVec.eq_of_toNat_eq
    rw [BitVec.toNat_zero]
    omega
  have hsame : (Float.ofBits (UInt64.ofNat n)).toBits.toBitVec = (UInt64.ofNat n).toBitVec :=
    pack_unpack hvalid
  exact (congrArg BitVec.toNat hsame).trans hbits

theorem isInf_eq (x : Float) : x.isInf = (decode x).unpacked.isInf := by
  rw [← unpack_eq]
  rfl

/-- A whole number that is not negative and not too large has a floating one without a sign. -/
theorem exists_hasValue_of_ofInteger? (hi : 0 ≤ i) (h : ofInteger? i = some x) :
    ∃ value, HasValue x value := by
  have hle : nearestBits i.natAbs 1 ≤ infinityBits := nearestBits_le _ _
  have hbits := toNat_toBits_ofBits hle
  have hi' : ¬i < 0 := by omega
  unfold ofInteger? ofQuotient at h
  simp only [hi', decide_false, Bool.false_eq_true, if_false, Option.ite_none_left_eq_some,
    Option.some.injEq] at h
  obtain ⟨hfinite, rfl⟩ := h
  rcases Nat.lt_or_eq_of_le hle with hlt | heq
  · exact exists_hasValue (hbits.trans_lt hlt)
  · have hinfinite := decode_of_pack_infinity (BitVec.eq_of_toNat_eq (hbits.trans heq))
    rw [isInf_eq, hinfinite] at hfinite
    exact absurd rfl hfinite

end Arranger.Decimal
