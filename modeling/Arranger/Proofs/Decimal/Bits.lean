import Arranger.Decimal.Reading
import Arranger.Proofs.Decimal.Rounding
import Mathlib

/-!
# Numbers and their bits

A number is given by its bits, and there is only one undefined number.  The bits of a finite number
are its scale and its mantissa, and the bit in front of them is its sign.
-/

namespace Arranger.Decimal

open Float.Model (Format UnpackedFloat)
open Float.Model.UnpackedFloat (Sign pack packComponents unpack unpackExponent unpackMantissa
  unpackSign)

/-! ## Parts of a number -/

theorem toBitVec_ofBitVec (b : BitVec 1) : (Sign.ofBitVec b).toBitVec = b := by
  have hlt := b.isLt
  have hcases : b = 0#1 ∨ b = 1#1 := by
    by_cases hzero : b.toNat = 0
    · exact .inl (BitVec.eq_of_toNat_eq hzero)
    · right
      apply BitVec.eq_of_toNat_eq
      simp only [BitVec.toNat_ofNat]
      omega
  rcases hcases with rfl | rfl
  · rfl
  · rfl

theorem extractLsb_append (b : BitVec 64) :
    (b.extractLsb 63 63 ++ b.extractLsb 62 52 ++ b.extractLsb 51 0 : BitVec (1 + 11 + 52)) = b := by
  apply BitVec.eq_of_getLsbD_eq
  intro i hi
  rw [BitVec.getLsbD_append, BitVec.getLsbD_append]
  simp only [BitVec.getLsbD_extractLsb]
  by_cases hlow : i < 52
  · simp [hlow]
  · by_cases hmiddle : i - 52 < 11
    · have hplace : 52 + (i - 52) = i := by omega
      simp [hlow, hmiddle, hplace]
    · have hplace : 63 + (i - 52 - 11) = i := by omega
      have hlast : i - 52 - 11 < 1 := by omega
      simp [hlow, hmiddle, hplace, hlast]

theorem packComponents_unpack (b : BitVec Format.binary64.numBits) :
    packComponents Format.binary64 (Sign.ofBitVec (unpackSign b)) (unpackExponent b)
      (unpackMantissa b) = b := by
  unfold packComponents
  rw [toBitVec_ofBitVec]
  exact extractLsb_append b

theorem toNat_one_append (m : BitVec 52) : (1#1 ++ m).toNat = 2 ^ 52 + m.toNat := by
  have hor := Nat.shiftLeft_add_eq_or_of_lt m.isLt 1
  rw [BitVec.toNat_append, BitVec.toNat_ofNat]
  rw [Nat.mod_eq_of_lt (by decide), ← hor, Nat.shiftLeft_eq]
  omega

theorem pack_subnormal
    {sign : Sign} {m : BitVec 52} (hpos : 0 < m.toNat) {exponent : Int} (hexponent : exponent = -1074) :
    pack Format.binary64 (.finite sign m.toNat exponent hpos) =
      packComponents Format.binary64 sign 0#11 m := by
  have hbiased : (exponent + Format.binary64.exponentBias +
      Format.binary64.mantissaBitsWithoutImplicit).toNat = 1 := by
    rw [hexponent]
    rfl
  have hlog : m.toNat.log2 + 1 ≠ Format.binary64.mantissaBits := by
    have hlt := (Nat.log2_lt (Nat.pos_iff_ne_zero.1 hpos)).2 m.isLt
    have hbits : Format.binary64.mantissaBits = 53 := rfl
    omega
  unfold pack
  dsimp only
  rw [hbiased, if_neg (by decide), if_neg hlog]
  congr 1
  exact BitVec.ofNat_toNat _ _

theorem pack_normal
    {sign : Sign} {biased : BitVec 11} {m : BitVec 52} (hbiased : biased.toNat < 2047)
    {mantissa : Nat} (hpos : 0 < mantissa) (hmantissa : mantissa = 2 ^ 52 + m.toNat) {exponent : Int}
    (hexponent : exponent = (biased.toNat : Int) - 1075) :
    pack Format.binary64 (.finite sign mantissa exponent hpos) =
      packComponents Format.binary64 sign biased m := by
  have hscale : (exponent + Format.binary64.exponentBias +
      Format.binary64.mantissaBitsWithoutImplicit).toNat = biased.toNat := by
    have hbias : (Format.binary64.exponentBias : Int) = 1023 := rfl
    have hwidth : (Format.binary64.mantissaBitsWithoutImplicit : Int) = 52 := rfl
    omega
  have hsmall : ¬2 ^ Format.binary64.exponentBits ≤ biased.toNat + 1 := by
    have hwidth : 2 ^ Format.binary64.exponentBits = 2048 := rfl
    omega
  have hlog : mantissa.log2 + 1 = Format.binary64.mantissaBits := by
    have hlow := (Nat.le_log2 (Nat.pos_iff_ne_zero.1 hpos)).2 (show 2 ^ 52 ≤ mantissa by omega)
    have hlt := m.isLt
    have hhigh := (Nat.log2_lt (Nat.pos_iff_ne_zero.1 hpos)).2 (show mantissa < 2 ^ 53 by omega)
    have hbits : Format.binary64.mantissaBits = 53 := rfl
    omega
  unfold pack
  dsimp only
  rw [hscale, if_neg hsmall, if_pos hlog]
  congr 1
  · exact BitVec.ofNat_toNat _ _
  · apply BitVec.eq_of_toNat_eq
    have hlt := m.isLt
    simp only [BitVec.toNat_ofNat]
    omega

theorem pack_unpack {b : BitVec Format.binary64.numBits} (hb : Format.binary64.Valid b) :
    pack Format.binary64 (unpack Format.binary64 b) = b := by
  have hparts := packComponents_unpack b
  unfold unpack
  dsimp only
  split
  · next hexponent =>
    split
    · next hmantissa =>
      rw [hexponent, hmantissa] at hparts
      exact hparts
    · next hmantissa => exact (hb.eq_packedNaN hexponent hmantissa).symm
  · next hexponent =>
    split
    · next hzero =>
      split
      · next hmantissa =>
        rw [hzero, hmantissa] at hparts
        exact hparts
      · next hmantissa =>
        rw [hzero] at hparts ⊢
        exact (pack_subnormal _ rfl).trans hparts
    · next hzero =>
      have hlt : (unpackExponent b).toNat < 2047 := by
        have hbound := (unpackExponent b).isLt
        have hwidth : 2 ^ Format.binary64.exponentBits = 2048 := rfl
        have hne : (unpackExponent b).toNat ≠ 2047 := by
          intro heq
          exact hexponent (BitVec.eq_of_toNat_eq heq)
        omega
      exact (pack_normal hlt _ (toNat_one_append _) rfl).trans hparts

theorem ofBits_toBits (x : Float) : Float.ofBits x.toBits = x := by
  obtain ⟨⟨bits, hvalid⟩⟩ := x
  have hpack := pack_unpack hvalid
  have hmodel : Float.Model.ofBits bits = ⟨bits, hvalid⟩ := by
    rw [Float.Model.mk.injEq]
    exact congrArg UInt64.ofBitVec hpack
  exact congrArg Float.ofModel hmodel

theorem ofBits_of_toNat {x : Float} {n : Nat} (h : x.toBits.toNat = n) :
    Float.ofBits (UInt64.ofNat n) = x := by
  rw [← h, UInt64.ofNat_toNat]
  exact ofBits_toBits x

/-! ## Signs -/

theorem toNat_packComponents (sign : Sign) (exponent : BitVec 11) (mantissa : BitVec 52) :
    (packComponents Format.binary64 sign exponent mantissa).toNat =
      sign.toBitVec.toNat * 2 ^ 63 + exponent.toNat * 2 ^ 52 + mantissa.toNat := by
  have happend : ∀ {m n : Nat} (a : BitVec m) (b : BitVec n),
      (a ++ b).toNat = a.toNat * 2 ^ n + b.toNat := by
    intro m n a b
    have hor := Nat.shiftLeft_add_eq_or_of_lt b.isLt a.toNat
    rw [BitVec.toNat_append, ← hor, Nat.shiftLeft_eq]
  unfold packComponents
  rw [happend, happend]
  change (sign.toBitVec.toNat * 2 ^ 11 + exponent.toNat) * 2 ^ 52 + mantissa.toNat = _
  omega

theorem unpackSign_packComponents
    (sign : Sign) (exponent : BitVec 11) (mantissa : BitVec 52) :
    Sign.ofBitVec (unpackSign (packComponents Format.binary64 sign exponent mantissa)) = sign := by
  have hparts := packComponents_unpack (packComponents Format.binary64 sign exponent mantissa)
  rw [UnpackedFloat.unpackExponent_packComponents, UnpackedFloat.unpackMantissa_packComponents] at hparts
  have hnat := congrArg BitVec.toNat hparts
  rw [toNat_packComponents, toNat_packComponents] at hnat
  generalize Sign.ofBitVec _ = found at hnat ⊢
  cases found with
  | negative =>
      cases sign with
      | negative => rfl
      | positive => simp [Sign.toBitVec] at hnat
  | positive =>
      cases sign with
      | negative => simp [Sign.toBitVec] at hnat
      | positive => rfl

theorem neg_unpack (exponent : BitVec 11) (mantissa : BitVec 52) :
    (unpack Format.binary64 (packComponents Format.binary64 .positive exponent mantissa)).neg =
      unpack Format.binary64 (packComponents Format.binary64 .negative exponent mantissa) := by
  unfold unpack
  simp only [UnpackedFloat.unpackExponent_packComponents,
    UnpackedFloat.unpackMantissa_packComponents, unpackSign_packComponents]
  split
  · split
    · rfl
    · rfl
  · split
    · split
      · rfl
      · rfl
    · rfl

/-- The parts of the bits of a number; only the undefined number has a mantissa beyond the
infinite ones, and it has no sign. -/
theorem exists_parts (x : Float) :
    ∃ (sign : Sign) (exponent : BitVec 11) (mantissa : BitVec 52),
      x.toBits.toBitVec = packComponents Format.binary64 sign exponent mantissa ∧
      (exponent = -1#11 → mantissa ≠ 0#52 →
        packComponents Format.binary64 sign exponent mantissa =
          UnpackedFloat.packedNaN Format.binary64) := by
  obtain ⟨⟨bits, hvalid⟩⟩ := x
  have hparts := packComponents_unpack bits.toBitVec
  refine ⟨_, _, _, hparts.symm, ?_⟩
  intro hexponent hmantissa
  rw [hparts]
  exact hvalid.eq_packedNaN hexponent hmantissa

theorem packComponents_negative_ne (exponent exponent' : BitVec 11) (mantissa mantissa' : BitVec 52) :
    packComponents Format.binary64 .negative exponent mantissa ≠
      packComponents Format.binary64 .positive exponent' mantissa' := by
  intro heq
  have hnat := congrArg BitVec.toNat heq
  have hnegative : Sign.negative.toBitVec.toNat = 1 := rfl
  have hpositive : Sign.positive.toBitVec.toNat = 0 := rfl
  rw [toNat_packComponents, toNat_packComponents, hnegative, hpositive] at hnat
  have hexponent := exponent'.isLt
  have hmantissa := mantissa'.isLt
  omega

/-- The parts of a number with a sign; without the sign they are those of a number, too. -/
theorem exists_negative_parts {x : Float} {n : Nat} (h : x.toBits.toNat = 2 ^ 63 + n) :
    ∃ (exponent : BitVec 11) (mantissa : BitVec 52),
      x.toBits.toBitVec = packComponents Format.binary64 .negative exponent mantissa ∧
      (UInt64.ofNat n).toBitVec = packComponents Format.binary64 .positive exponent mantissa ∧
      Format.binary64.Valid (packComponents Format.binary64 .positive exponent mantissa) := by
  obtain ⟨sign, exponent, mantissa, hbits, hnan⟩ := exists_parts x
  have hnat := congrArg BitVec.toNat hbits
  have hword : x.toBits.toBitVec.toNat = x.toBits.toNat := rfl
  have hnegative : Sign.negative.toBitVec.toNat = 1 := rfl
  have hpositive : Sign.positive.toBitVec.toNat = 0 := rfl
  have hexponent := exponent.isLt
  have hmantissa := mantissa.isLt
  rw [toNat_packComponents, hword, h] at hnat
  obtain rfl : sign = .negative := by
    cases sign with
    | negative => rfl
    | positive =>
        rw [hpositive] at hnat
        omega
  rw [hnegative] at hnat
  refine ⟨exponent, mantissa, hbits, ?_, ⟨?_⟩⟩
  · apply BitVec.eq_of_toNat_eq
    rw [toNat_packComponents, hpositive]
    change (UInt64.ofNat n).toNat = _
    rw [UInt64.toNat_ofNat_of_lt' (by change n < 2 ^ 64; omega)]
    omega
  · rw [UnpackedFloat.unpackExponent_packComponents, UnpackedFloat.unpackMantissa_packComponents]
    intro hinfinite hundefined
    exact absurd (hnan hinfinite hundefined) (packComponents_negative_ne _ _ _ _)

/-- A number with a sign is the negative one of the number without it. -/
theorem neg_ofBits_of_toNat {x : Float} {n : Nat} (h : x.toBits.toNat = 2 ^ 63 + n) :
    -Float.ofBits (UInt64.ofNat n) = x := by
  obtain ⟨exponent, mantissa, hbits, hcleared, hvalid⟩ := exists_negative_parts h
  have hfound : Float.Model.ofBits (UInt64.ofNat n) =
      ⟨UInt64.ofBitVec (packComponents Format.binary64 .positive exponent mantissa), hvalid⟩ := by
    rw [Float.Model.mk.injEq]
    change UInt64.ofBitVec (pack Format.binary64
      (unpack Format.binary64 (UInt64.ofNat n).toBitVec)) = _
    rw [hcleared]
    exact congrArg UInt64.ofBitVec (pack_unpack hvalid)
  obtain ⟨⟨bits, hbitsValid⟩⟩ := x
  have hneg : -Float.Model.ofBits (UInt64.ofNat n) = ⟨bits, hbitsValid⟩ := by
    rw [hfound, Float.Model.mk.injEq]
    change UInt64.ofBitVec (pack Format.binary64
      (unpack Format.binary64 (packComponents Format.binary64 .positive exponent mantissa)).neg) = bits
    rw [neg_unpack, ← hbits]
    exact congrArg UInt64.ofBitVec (pack_unpack hbitsValid)
  exact congrArg Float.ofModel hneg

/-! ## Decoded numbers -/

/-- The bit of a sign. -/
def signBit (negative : Bool) : Nat := if negative then 2 ^ 63 else 0

theorem decode_cases (x : Float) :
    ∃ negative biased fraction, x.toBits.toNat = signBit negative + biased * 2 ^ 52 + fraction ∧
      biased < 2048 ∧ fraction < 2 ^ 52 ∧
      decode x = if biased = 2047 then if fraction = 0 then .infinite negative else .nan
        else if biased = 0 then .finite negative fraction (-1074)
        else .finite negative (2 ^ 52 + fraction) ((biased : Int) - 1075) := by
  have hlt : x.toBits.toNat < 2 ^ 64 := x.toBits.toNat_lt
  refine ⟨decide (2 ^ 63 ≤ x.toBits.toNat), x.toBits.toNat / 2 ^ 52 % 2 ^ 11,
    x.toBits.toNat % 2 ^ 52, ?_, Nat.mod_lt _ (by decide), Nat.mod_lt _ (by decide), rfl⟩
  unfold signBit
  by_cases hsign : 2 ^ 63 ≤ x.toBits.toNat
  · simp only [hsign, decide_true, if_true]
    omega
  · simp only [hsign, decide_false, Bool.false_eq_true, if_false]
    omega

theorem toNat_of_decode_finite
    {x : Float} {negative : Bool} {mantissa : Nat} {exponent : Int}
    (h : decode x = .finite negative mantissa exponent) :
    x.toBits.toNat = signBit negative + ((exponent + 1074).toNat * 2 ^ 52 + mantissa) ∧
      (mantissa = 0 ∧ exponent = -1074 ∨ IsSize mantissa exponent) := by
  obtain ⟨sign, biased, fraction, hbits, hbiased, hfraction, hdecode⟩ := decode_cases x
  rw [hdecode] at h
  split at h
  · split at h
    · simp at h
    · simp at h
  · next hfinite =>
    split at h
    · next hzero =>
      simp only [Binary64.finite.injEq] at h
      obtain ⟨rfl, rfl, rfl⟩ := h
      refine ⟨?_, ?_⟩
      · rw [hbits, hzero]
        simp
      · by_cases hfraction' : fraction = 0
        · exact .inl ⟨hfraction', rfl⟩
        · exact .inr ⟨by omega, by omega, by omega, by omega, .inl rfl⟩
    · next hnormal =>
      simp only [Binary64.finite.injEq] at h
      obtain ⟨rfl, rfl, rfl⟩ := h
      refine ⟨?_, .inr ⟨by omega, by omega, by omega, by omega, .inr (by omega)⟩⟩
      omega

theorem toNat_of_decode_infinite
    {x : Float} {negative : Bool} (h : decode x = .infinite negative) :
    x.toBits.toNat = signBit negative + infinityBits := by
  obtain ⟨sign, biased, fraction, hbits, hbiased, hfraction, hdecode⟩ := decode_cases x
  rw [hdecode] at h
  split at h
  · next hfull =>
    split at h
    · next hzero =>
      simp only [Binary64.infinite.injEq] at h
      rw [hbits, h, hfull, hzero]
      rfl
    · simp at h
  · split at h
    · simp at h
    · simp at h

/-- There is one undefined number. -/
theorem eq_notANumber_of_decode {x : Float} (h : decode x = .nan) : x = notANumber := by
  obtain ⟨negative, biased, fraction, hbits, hbiased, hfraction, hdecode⟩ := decode_cases x
  obtain ⟨sign, exponent, mantissa, hparts, hnan⟩ := exists_parts x
  have hnat := congrArg BitVec.toNat hparts
  have hword : x.toBits.toBitVec.toNat = x.toBits.toNat := rfl
  have hexponent := exponent.isLt
  have hmantissa := mantissa.isLt
  have hsign := sign.toBitVec.isLt
  rw [toNat_packComponents, hword, hbits] at hnat
  rw [hdecode] at h
  split at h
  · next hfull =>
    split at h
    · simp at h
    · next hne =>
      have hsame : exponent.toNat = 2047 ∧ mantissa.toNat = fraction := by
        unfold signBit at hnat
        cases negative <;> simp at hnat <;> omega
      have hcanonical := hnan (BitVec.eq_of_toNat_eq hsame.1) (by
        rintro rfl
        exact hne hsame.2.symm)
      rw [hcanonical] at hparts
      have hbitsEq : x.toBits = 0x7FF8000000000000 := by
        apply UInt64.toBitVec_inj.1
        rw [hparts]
        rfl
      rw [notANumber, ← hbitsEq, ofBits_toBits]
  · split at h
    · simp at h
    · simp at h

/-- A number without a sign is given by its other bits. -/
theorem signed_ofBits
    {x : Float} {negative : Bool} {n : Nat} (h : x.toBits.toNat = signBit negative + n) :
    (if negative then -Float.ofBits (UInt64.ofNat n) else Float.ofBits (UInt64.ofNat n)) = x := by
  cases negative with
  | false =>
      simp only [signBit, Bool.false_eq_true, if_false, Nat.zero_add] at h ⊢
      exact ofBits_of_toNat h
  | true =>
      simp only [signBit, if_true] at h ⊢
      exact neg_ofBits_of_toNat h

end Arranger.Decimal
