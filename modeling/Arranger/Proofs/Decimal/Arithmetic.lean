import Arranger.Decimal.Whole
import Arranger.Proofs.Decimal.Packing

/-!
# Sums and products

A sum or a product of two numbers without a sign is the binary64 number nearest to the exact one.
Numbers without a sign are ordered as their bits are, so that neither a sum nor a product can fall
behind a lesser one, and nothing is finite that has a part that is not.
-/

namespace Arranger.Decimal

open Float.Model (Format UnpackedFloat totalExponent)
open Float.Model.UnpackedFloat (Sign decreaseExponent pack packComponents roundWithAccuracy unpack)

/-! ## Numbers without a sign -/

def signOf (negative : Bool) : Sign := if negative then .negative else .positive

/-- A decoded number as arithmetic takes it. -/
def Binary64.unpacked : Binary64 → UnpackedFloat
  | .nan => .notANumber
  | .infinite negative => .infinity (signOf negative)
  | .finite negative mantissa exponent =>
      if h : 0 < mantissa then .finite (signOf negative) mantissa exponent h
      else .zero (signOf negative)

theorem unpack_eq (x : Float) :
    unpack Format.binary64 x.toBits.toBitVec = (decode x).unpacked := by
  obtain ⟨sign, exponent, mantissa, hparts, -⟩ := exists_parts x
  obtain ⟨negative, biased, fraction, hbits, hbiased, hfraction, hdecode⟩ := decode_cases x
  have hnat := congrArg BitVec.toNat hparts
  have hword : x.toBits.toBitVec.toNat = x.toBits.toNat := rfl
  have hexponentLt := exponent.isLt
  have hmantissaLt := mantissa.isLt
  rw [toNat_packComponents, hword, hbits] at hnat
  have hsign : sign = signOf negative := by
    cases sign <;> cases negative <;> simp [signBit, signOf, Sign.toBitVec] at hnat ⊢ <;> omega
  subst hsign
  have hsame : exponent.toNat = biased ∧ mantissa.toNat = fraction := by
    cases negative <;> simp [signBit, signOf, Sign.toBitVec] at hnat <;> omega
  obtain ⟨rfl, rfl⟩ := hsame
  rw [hdecode, hparts]
  unfold unpack
  simp only [UnpackedFloat.unpackExponent_packComponents,
    UnpackedFloat.unpackMantissa_packComponents, unpackSign_packComponents]
  have hfull : (exponent = -1#11) ↔ exponent.toNat = 2047 := by
    rw [← BitVec.toNat_inj]
    rfl
  have hleast : (exponent = 0#11) ↔ exponent.toNat = 0 := by rw [← BitVec.toNat_inj, BitVec.toNat_zero]
  have hzero : (mantissa = 0#52) ↔ mantissa.toNat = 0 := by rw [← BitVec.toNat_inj, BitVec.toNat_zero]
  have hbias : ((Format.binary64.exponentBias : Int) + 52) = 1075 := rfl
  by_cases hspecial : exponent.toNat = 2047
  · rw [if_pos (hfull.2 hspecial), if_pos hspecial]
    by_cases hnone : mantissa.toNat = 0
    · rw [if_pos (hzero.2 hnone), if_pos hnone]
      rfl
    · rw [if_neg (mt hzero.1 hnone), if_neg hnone]
      rfl
  · rw [if_neg (mt hfull.1 hspecial), if_neg hspecial]
    by_cases hsubnormal : exponent.toNat = 0
    · rw [if_pos (hleast.2 hsubnormal), if_pos hsubnormal]
      by_cases hnone : mantissa.toNat = 0
      · rw [dif_pos (hzero.2 hnone), Binary64.unpacked, dif_neg (by omega)]
      · rw [dif_neg (mt hzero.1 hnone), Binary64.unpacked, dif_pos (Nat.pos_of_ne_zero hnone),
          UnpackedFloat.finite.injEq]
        exact ⟨rfl, rfl, by omega⟩
    · rw [if_neg (mt hleast.1 hsubnormal), if_neg hsubnormal, Binary64.unpacked,
        dif_pos (by omega), UnpackedFloat.finite.injEq]
      exact ⟨rfl, toNat_one_append mantissa, by omega⟩

theorem pack_unpacked (x : Float) :
    pack Format.binary64 (decode x).unpacked = x.toBits.toBitVec := by
  rw [← unpack_eq]
  exact pack_unpack x.toModel.valid

/-- The number is finite and has no sign, and its exact value is the given one. -/
def HasValue (x : Float) (value : ℚ) : Prop :=
  ∃ mantissa exponent, decode x = .finite false mantissa exponent ∧ value = mantissa * 2 ^ exponent

section

variable {x y : Float} {value value' : ℚ}

theorem HasValue.nonneg (h : HasValue x value) : 0 ≤ value := by
  obtain ⟨mantissa, exponent, -, rfl⟩ := h
  positivity

theorem roundsTo_self (mantissa : Nat) (exponent : Int) :
    RoundsTo mantissa exponent (mantissa * 2 ^ exponent) := by
  have hpower : (0 : ℚ) < 2 ^ exponent := by positivity
  have hlow : (mantissa - 1 / 2 : ℚ) * 2 ^ exponent < mantissa * 2 ^ exponent :=
    mul_lt_mul_of_pos_right (by linarith) hpower
  have hhigh : (mantissa : ℚ) * 2 ^ exponent < (mantissa + 1 / 2) * 2 ^ exponent :=
    mul_lt_mul_of_pos_right (by linarith) hpower
  refine ⟨hlow.le, hhigh.le, .inr ⟨hlow, hhigh⟩, ?_⟩
  intro hmantissa _
  rw [hmantissa]
  push_cast
  exact mul_le_mul_of_nonneg_right (by norm_num) hpower.le

/-- A number is the nearest one to its own value. -/
theorem HasValue.toNat_toBits (h : HasValue x value) : x.toBits.toNat = roundedBits value := by
  obtain ⟨mantissa, exponent, hdecode, hvalue⟩ := h
  obtain ⟨hbits, hsize⟩ := toNat_of_decode_finite hdecode
  rw [signBit, if_neg (by decide), Nat.zero_add] at hbits
  rw [hbits]
  rcases hsize with ⟨rfl, rfl⟩ | hsize
  · rw [hvalue, Nat.cast_zero, zero_mul, roundedBits_zero]
    rfl
  · have hden : (scaled mantissa exponent).2 ≠ 0 := (scaled_pos mantissa exponent).ne'
    have hscaled := scaled_eq mantissa exponent
    rw [← nearestBits_eq_roundedBits hden (hscaled.trans hvalue.symm)]
    symm
    apply nearestBits_of_roundsTo hsize hden
    rw [hscaled]
    exact roundsTo_self mantissa exponent

theorem HasValue.toNat_lt (h : HasValue x value) : x.toBits.toNat < infinityBits := by
  obtain ⟨mantissa, exponent, hdecode, -⟩ := h
  obtain ⟨hbits, hsize⟩ := toNat_of_decode_finite hdecode
  have hinfinity : infinityBits = 2047 * 2 ^ 52 := rfl
  rw [signBit, if_neg (by decide), Nat.zero_add] at hbits
  rcases hsize with ⟨rfl, rfl⟩ | hsize
  · rw [hbits]
    decide
  · have hlt := hsize.lt
    have hmost := hsize.toNat_le
    omega

/-- Bits below those of infinity are those of a finite number without a sign. -/
theorem exists_hasValue (h : x.toBits.toNat < infinityBits) : ∃ value, HasValue x value := by
  obtain ⟨negative, biased, fraction, hbits, hbiased, hfraction, hdecode⟩ := decode_cases x
  have hinfinity : infinityBits = 2047 * 2 ^ 52 := rfl
  have hsign : negative = false := by
    cases negative with
    | false => rfl
    | true =>
        rw [signBit, if_pos rfl] at hbits
        omega
  rw [hsign, signBit, if_neg (by decide), Nat.zero_add] at hbits
  have hne : biased ≠ 2047 := by omega
  rw [hsign, if_neg hne] at hdecode
  split at hdecode
  · exact ⟨_, _, _, hdecode, rfl⟩
  · exact ⟨_, _, _, hdecode, rfl⟩

theorem HasValue.unique (h : HasValue x value) (h' : HasValue x value') : value = value' := by
  obtain ⟨mantissa, exponent, hdecode, rfl⟩ := h
  obtain ⟨mantissa', exponent', hdecode', rfl⟩ := h'
  rw [hdecode, Binary64.finite.injEq] at hdecode'
  obtain ⟨-, rfl, rfl⟩ := hdecode'
  rfl

theorem HasValue.le_of_toNat_le
    (hx : HasValue x value) (hy : HasValue y value') (h : x.toBits.toNat ≤ y.toBits.toNat) :
    value ≤ value' := by
  by_contra hlt
  rw [not_le] at hlt
  have hmono := roundedBits_mono hy.nonneg hlt.le
  rw [← hx.toNat_toBits, ← hy.toNat_toBits] at hmono
  have hsame : x = y := by
    rw [← ofBits_toBits x, ← ofBits_toBits y, UInt64.toNat_inj.1 (Nat.le_antisymm h hmono)]
  subst hsame
  exact absurd (hx.unique hy) hlt.ne'

/-- A number without a sign is unpacked as zero, or as a size. -/
theorem HasValue.unpacked_cases (h : HasValue x value) :
    ((decode x).unpacked = .zero .positive ∧ value = 0) ∨
      ∃ mantissa exponent hpos, IsSize mantissa exponent ∧
        (decode x).unpacked = .finite .positive mantissa exponent hpos ∧
        value = mantissa * 2 ^ exponent := by
  obtain ⟨mantissa, exponent, hdecode, rfl⟩ := h
  obtain ⟨-, hsize⟩ := toNat_of_decode_finite hdecode
  rw [hdecode]
  rcases hsize with ⟨rfl, -⟩ | hsize
  · refine .inl ⟨rfl, ?_⟩
    rw [Nat.cast_zero, zero_mul]
  · refine .inr ⟨mantissa, exponent, hsize.pos, hsize, ?_, rfl⟩
    rw [Binary64.unpacked, dif_pos hsize.pos]
    rfl

/-! ## Sums and products -/

theorem toBitVec_add (x y : Float) : (x + y).toBits.toBitVec =
    pack Format.binary64 (.add Format.binary64 (decode x).unpacked (decode y).unpacked) := by
  rw [← unpack_eq, ← unpack_eq]
  rfl

theorem toBitVec_mul (x y : Float) : (x * y).toBits.toBitVec =
    pack Format.binary64 (.mul Format.binary64 (decode x).unpacked (decode y).unpacked) := by
  rw [← unpack_eq, ← unpack_eq]
  rfl

theorem decreaseExponent_eq {mantissa : Nat} {exponent target : Int} (hle : target ≤ exponent) :
    ((decreaseExponent mantissa exponent target).1 : ℚ) * 2 ^ target = mantissa * 2 ^ exponent := by
  unfold decreaseExponent
  dsimp only
  rw [Nat.shiftLeft_eq, Nat.cast_mul, Nat.cast_pow, Nat.cast_ofNat, mul_assoc, ← zpow_natCast,
    ← zpow_add₀ (by norm_num)]
  congr 2
  omega

theorem decreaseExponent_pos {mantissa : Nat} (hpos : 0 < mantissa) (exponent target : Int) :
    0 < (decreaseExponent mantissa exponent target).1 := by
  unfold decreaseExponent
  dsimp only
  rw [Nat.shiftLeft_eq]
  positivity

theorem add_finite {m n : Nat} (hm : 0 < m) (hn : 0 < n) (e f : Int) :
    UnpackedFloat.add Format.binary64 (.finite .positive m e hm) (.finite .positive n f hn) =
      UnpackedFloat.round Format.binary64 .positive
        ((decreaseExponent m e (min e f)).1 + (decreaseExponent n f (min e f)).1) (min e f) := by
  have hpos := Nat.add_pos_left (decreaseExponent_pos hm e (min e f))
    (decreaseExponent n f (min e f)).1
  change UnpackedFloat.normalize Format.binary64
    (((decreaseExponent m e (min e f)).1 : Int) + (decreaseExponent n f (min e f)).1) (min e f)
      .positive = _
  rw [← Int.natCast_add]
  unfold UnpackedFloat.normalize
  have hcompare : compare (((decreaseExponent m e (min e f)).1 +
      (decreaseExponent n f (min e f)).1 : Nat) : Int) 0 = .gt :=
    compare_gt_iff_gt.2 (by exact_mod_cast hpos)
  rw [hcompare]
  rfl

theorem toNat_pack_add {m n : Nat} (hm : 0 < m) (hn : 0 < n) (e f : Int) :
    (pack Format.binary64 (.add Format.binary64 (.finite .positive m e hm)
      (.finite .positive n f hn))).toNat = roundedBits (m * 2 ^ e + n * 2 ^ f) := by
  have hfirst : ((decreaseExponent m e (min e f)).1 : ℚ) * 2 ^ min e f = m * 2 ^ e :=
    decreaseExponent_eq (min_le_left e f)
  have hsecond : ((decreaseExponent n f (min e f)).1 : ℚ) * 2 ^ min e f = n * 2 ^ f :=
    decreaseExponent_eq (min_le_right e f)
  have hpos := Nat.add_pos_left (decreaseExponent_pos hm e (min e f))
    (decreaseExponent n f (min e f)).1
  have hvalue : (((decreaseExponent m e (min e f)).1 + (decreaseExponent n f (min e f)).1 : Nat) :
      ℚ) * 2 ^ min e f = m * 2 ^ e + n * 2 ^ f := by
    rw [Nat.cast_add, add_mul, hfirst, hsecond]
  rw [add_finite, toNat_pack_round hpos (scaled_pos _ _) (scaled_eq _ _)]
  exact nearestBits_eq_roundedBits (scaled_pos _ _).ne' ((scaled_eq _ _).trans hvalue)

theorem HasValue.positiveZero_add (hy : HasValue y value') :
    UnpackedFloat.add Format.binary64 (.zero .positive) (decode y).unpacked =
      (decode y).unpacked := by
  rcases hy.unpacked_cases with ⟨hzero, -⟩ | ⟨n, f, hn, -, hfinite, -⟩
  · rw [hzero]
    rfl
  · rw [hfinite]
    rfl

/-- A sum is the number nearest to the exact sum. -/
theorem HasValue.toNat_add (hx : HasValue x value) (hy : HasValue y value') :
    (x + y).toBits.toNat = roundedBits (value + value') := by
  have hword : (x + y).toBits.toNat = (x + y).toBits.toBitVec.toNat := rfl
  rw [hword, toBitVec_add]
  rcases hx.unpacked_cases with ⟨hxZero, rfl⟩ | ⟨m, e, hm, -, hxFinite, rfl⟩
  · rw [hxZero, hy.positiveZero_add, pack_unpacked, zero_add]
    exact hy.toNat_toBits
  · rcases hy.unpacked_cases with ⟨hyZero, rfl⟩ | ⟨n, f, hn, -, hyFinite, rfl⟩
    · rw [add_zero, ← hx.toNat_toBits]
      change _ = x.toBits.toBitVec.toNat
      rw [← pack_unpacked x, hyZero, hxFinite]
      rfl
    · rw [hxFinite, hyFinite]
      exact toNat_pack_add hm hn e f

theorem toNat_pack_mul
    {m n : Nat} {e f : Int} (hm : 0 < m) (hn : 0 < n) (hsize : IsSize m e) (hsize' : IsSize n f) :
    (pack Format.binary64 (.mul Format.binary64 (.finite .positive m e hm)
      (.finite .positive n f hn))).toNat = roundedBits (m * 2 ^ e * (n * 2 ^ f)) := by
  have hpos : 0 < m * n := Nat.mul_pos hm hn
  have hvalue : ((m * n : Nat) : ℚ) * 2 ^ (e + f) = m * 2 ^ e * (n * 2 ^ f) := by
    rw [zpow_add₀ (by norm_num), Nat.cast_mul]
    ring
  -- one factor has all its bits, or both have the least scale
  have hlonger : e + f ≤ Format.binary64.targetExponent (totalExponent (m * n) (e + f)) := by
    have hlog : 2 ^ 52 ≤ m * n → 52 ≤ (m * n).log2 :=
      (Nat.le_log2 (Nat.pos_iff_ne_zero.1 hpos)).2
    have hleft := Nat.le_mul_of_pos_right m hn
    have hright := Nat.le_mul_of_pos_left n hm
    have hnormal := hsize.normal
    have hnormal' := hsize'.normal
    rw [targetExponent_eq]
    omega
  change (pack Format.binary64 (roundWithAccuracy Format.binary64 .positive (m * n) (e + f)
    .exact)).toNat = _
  rw [toNat_pack_roundWithAccuracy hpos hlonger (scaled_pos _ _) (scaled_eq _ _)]
  exact nearestBits_eq_roundedBits (scaled_pos _ _).ne' ((scaled_eq _ _).trans hvalue)

/-- A product is the number nearest to the exact product. -/
theorem HasValue.toNat_mul (hx : HasValue x value) (hy : HasValue y value') :
    (x * y).toBits.toNat = roundedBits (value * value') := by
  have hword : (x * y).toBits.toNat = (x * y).toBits.toBitVec.toNat := rfl
  rw [hword, toBitVec_mul]
  rcases hx.unpacked_cases with ⟨hxZero, rfl⟩ | ⟨m, e, hm, hxSize, hxFinite, rfl⟩
  · rw [zero_mul, roundedBits_zero, hxZero]
    rcases hy.unpacked_cases with ⟨hyZero, -⟩ | ⟨n, f, hn, -, hyFinite, -⟩
    · rw [hyZero]
      rfl
    · rw [hyFinite]
      rfl
  · rcases hy.unpacked_cases with ⟨hyZero, rfl⟩ | ⟨n, f, hn, hySize, hyFinite, rfl⟩
    · rw [mul_zero, roundedBits_zero, hxFinite, hyZero]
      rfl
    · rw [hxFinite, hyFinite]
      exact toNat_pack_mul hm hn hxSize hySize

/-! ## Numbers that are not negative -/

/-- The number is undefined, or it has no sign. -/
inductive IsUnsigned (x : Float) : Prop
  | undefined (h : decode x = .nan)
  | infinite (h : decode x = .infinite false)
  | finite {value : ℚ} (h : HasValue x value)

theorem decode_of_pack_notANumber
    (h : x.toBits.toBitVec = pack Format.binary64 .notANumber) : decode x = .nan := by
  have hbits : x.toBits = UInt64.ofBitVec (pack Format.binary64 .notANumber) := by rw [← h]
  rw [decode, hbits]
  rfl

theorem decode_of_pack_infinity
    (h : x.toBits.toBitVec = pack Format.binary64 (.infinity .positive)) :
    decode x = .infinite false := by
  have hbits : x.toBits = UInt64.ofBitVec (pack Format.binary64 (.infinity .positive)) := by rw [← h]
  rw [decode, hbits]
  rfl

theorem le_iff (x y : Float) :
    x ≤ y ↔ UnpackedFloat.le (decode x).unpacked (decode y).unpacked = true := by
  rw [← unpack_eq, ← unpack_eq]
  exact decide_eq_true_iff

/-- What is not at most zero has no sign. -/
theorem isUnsigned_of_not_le (h : ¬x ≤ 0.0) : IsUnsigned x := by
  have hzero : (decode 0.0).unpacked = .zero .positive := rfl
  rw [le_iff, hzero] at h
  cases hdecode : decode x with
  | nan => exact .undefined hdecode
  | infinite negative =>
      cases negative with
      | false => exact .infinite hdecode
      | true =>
          rw [hdecode] at h
          exact absurd rfl h
  | finite negative mantissa exponent =>
      cases negative with
      | false => exact .finite ⟨_, _, hdecode, rfl⟩
      | true =>
          rw [hdecode] at h
          rcases Nat.eq_zero_or_pos mantissa with rfl | hpos
          · exact absurd rfl h
          · rw [Binary64.unpacked, dif_pos hpos] at h
            exact absurd rfl h

theorem isUnsigned_of_toNat_le (h : x.toBits.toNat ≤ infinityBits) : IsUnsigned x := by
  rcases Nat.lt_or_eq_of_le h with hlt | heq
  · obtain ⟨value, hvalue⟩ := exists_hasValue hlt
    exact .finite hvalue
  · apply IsUnsigned.infinite
    apply decode_of_pack_infinity
    apply BitVec.eq_of_toNat_eq
    exact heq

theorem HasValue.infinity_add (hy : HasValue y value') :
    UnpackedFloat.add Format.binary64 (.infinity .positive) (decode y).unpacked =
      .infinity .positive := by
  rcases hy.unpacked_cases with ⟨hzero, -⟩ | ⟨n, f, hn, -, hfinite, -⟩
  · rw [hzero]
    rfl
  · rw [hfinite]
    rfl

theorem HasValue.add_infinity (hx : HasValue x value) :
    UnpackedFloat.add Format.binary64 (decode x).unpacked (.infinity .positive) =
      .infinity .positive := by
  rcases hx.unpacked_cases with ⟨hzero, -⟩ | ⟨m, e, hm, -, hfinite, -⟩
  · rw [hzero]
    rfl
  · rw [hfinite]
    rfl

theorem HasValue.add_notANumber (hx : HasValue x value) :
    UnpackedFloat.add Format.binary64 (decode x).unpacked .notANumber = .notANumber := by
  rcases hx.unpacked_cases with ⟨hzero, -⟩ | ⟨m, e, hm, -, hfinite, -⟩
  · rw [hzero]
    rfl
  · rw [hfinite]
    rfl

/-- A sum has a part that is not finite, and then it is not finite itself; or both are finite. -/
theorem IsUnsigned.add_cases (hx : IsUnsigned x) (hy : IsUnsigned y) :
    decode (x + y) = .nan ∨ decode (x + y) = .infinite false ∨
      ∃ value value', HasValue x value ∧ HasValue y value' := by
  have hsum := toBitVec_add x y
  cases hx with
  | undefined hx =>
      rw [hx] at hsum
      exact .inl (decode_of_pack_notANumber hsum)
  | infinite hx =>
      cases hy with
      | undefined hy =>
          rw [hx, hy] at hsum
          exact .inl (decode_of_pack_notANumber hsum)
      | infinite hy =>
          rw [hx, hy] at hsum
          exact .inr (.inl (decode_of_pack_infinity hsum))
      | finite hy =>
          rw [hx] at hsum
          exact .inr (.inl (decode_of_pack_infinity
            (hsum.trans (congrArg (pack Format.binary64) hy.infinity_add))))
  | finite hx =>
      cases hy with
      | undefined hy =>
          rw [hy] at hsum
          exact .inl (decode_of_pack_notANumber
            (hsum.trans (congrArg (pack Format.binary64) hx.add_notANumber)))
      | infinite hy =>
          rw [hy] at hsum
          exact .inr (.inl (decode_of_pack_infinity
            (hsum.trans (congrArg (pack Format.binary64) hx.add_infinity))))
      | finite hy => exact .inr (.inr ⟨_, _, hx, hy⟩)

theorem IsUnsigned.add (hx : IsUnsigned x) (hy : IsUnsigned y) : IsUnsigned (x + y) := by
  rcases hx.add_cases hy with hundefined | hinfinite | ⟨value, value', hx, hy⟩
  · exact .undefined hundefined
  · exact .infinite hinfinite
  · apply isUnsigned_of_toNat_le
    rw [hx.toNat_add hy]
    exact nearestBits_le _ _

/-- A product with a finite number is not finite if the other factor is not. -/
theorem IsUnsigned.mul_cases (hx : IsUnsigned x) (hy : HasValue y value') :
    decode (x * y) = .nan ∨ decode (x * y) = .infinite false ∨ ∃ value, HasValue x value := by
  have hproduct := toBitVec_mul x y
  cases hx with
  | undefined hx =>
      rw [hx] at hproduct
      exact .inl (decode_of_pack_notANumber hproduct)
  | infinite hx =>
      rw [hx] at hproduct
      rcases hy.unpacked_cases with ⟨hzero, -⟩ | ⟨n, f, hn, -, hfinite, -⟩
      · rw [hzero] at hproduct
        exact .inl (decode_of_pack_notANumber hproduct)
      · rw [hfinite] at hproduct
        exact .inr (.inl (decode_of_pack_infinity hproduct))
  | finite hx => exact .inr (.inr ⟨_, hx⟩)

theorem IsUnsigned.mul (hx : IsUnsigned x) (hy : HasValue y value') : IsUnsigned (x * y) := by
  rcases hx.mul_cases hy with hundefined | hinfinite | ⟨value, hx⟩
  · exact .undefined hundefined
  · exact .infinite hinfinite
  · apply isUnsigned_of_toNat_le
    rw [hx.toNat_mul hy]
    exact nearestBits_le _ _

theorem HasValue.decode_ne (h : HasValue x value) :
    decode x ≠ .nan ∧ decode x ≠ .infinite false := by
  obtain ⟨mantissa, exponent, hdecode, -⟩ := h
  rw [hdecode]
  exact ⟨nofun, nofun⟩

/-- A finite sum has finite parts, and is not less than the first. -/
theorem HasValue.of_add
    {sum : ℚ} (hx : IsUnsigned x) (hy : IsUnsigned y) (h : HasValue (x + y) sum) :
    ∃ value, HasValue x value ∧ value ≤ sum := by
  rcases hx.add_cases hy with hundefined | hinfinite | ⟨value, value', hx, hy⟩
  · exact absurd hundefined h.decode_ne.1
  · exact absurd hinfinite h.decode_ne.2
  · refine ⟨value, hx, ?_⟩
    apply hx.le_of_toNat_le h
    rw [hx.toNat_toBits, hx.toNat_add hy]
    exact roundedBits_mono hx.nonneg (le_add_of_nonneg_right hy.nonneg)

/-- The product of a lesser number is finite if that of a greater one is, and is not greater. -/
theorem HasValue.mul_of_le
    {z : Float} {factor product : ℚ} (hx : HasValue x value) (hy : HasValue y value')
    (hle : value ≤ value') (hz : HasValue z factor) (h : HasValue (y * z) product) :
    ∃ lesser, HasValue (x * z) lesser ∧ lesser ≤ product := by
  have hbits : (x * z).toBits.toNat ≤ (y * z).toBits.toNat := by
    rw [hx.toNat_mul hz, hy.toNat_mul hz]
    exact roundedBits_mono (mul_nonneg hx.nonneg hz.nonneg)
      (mul_le_mul_of_nonneg_right hle hz.nonneg)
  obtain ⟨lesser, hlesser⟩ := exists_hasValue (hbits.trans_lt h.toNat_lt)
  exact ⟨lesser, hlesser, hlesser.le_of_toNat_le h hbits⟩

/-! ## Nearest whole numbers -/

theorem IsUnsigned.hasValue_of_nearestWhole {n : Int} (hx : IsUnsigned x)
    (h : nearestWhole x = .ok n) : ∃ value, HasValue x value := by
  cases hx with
  | undefined hx => simp [nearestWhole, hx] at h
  | infinite hx => simp [nearestWhole, hx] at h
  | finite hx => exact ⟨_, hx⟩

end

end Arranger.Decimal
