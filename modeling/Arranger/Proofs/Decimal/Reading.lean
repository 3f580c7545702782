import Arranger.Proofs.Decimal.Bits
import Arranger.Proofs.Decimal.Spelling

/-!
# Written numbers read back

A decimal that rounds to a number is read as that number: the bounds on its leading digit refuse
only decimals that are beyond all numbers or below half of the least one.  The text of a number is
such a decimal, so that it is read as the number it was written for.
-/

namespace Arranger.Decimal

open Arranger.Text

/-! ## Sizes of digit runs -/

theorem ofDigits_cons (d : Nat) (digits : List Nat) :
    ofDigits 10 (d :: digits) = d * 10 ^ digits.length + ofDigits 10 digits := by
  have hfrom : ∀ (digits : List Nat) (start : Nat),
      digits.foldl (fun value d => 10 * value + d) start =
        start * 10 ^ digits.length + ofDigits 10 digits := by
    intro digits
    induction digits with
    | nil => simp [ofDigits]
    | cons d digits ih =>
        intro start
        have hdigits : ofDigits 10 (d :: digits) = d * 10 ^ digits.length + ofDigits 10 digits := by
          rw [ofDigits, List.foldl_cons, ih, Nat.mul_zero, Nat.zero_add]
        rw [List.foldl_cons, ih, hdigits, List.length_cons, Nat.pow_succ]
        ring
  rw [ofDigits, List.foldl_cons, hfrom]
  simp

theorem ofDigits_lt {digits : List Nat} (h : ∀ d ∈ digits, d < 10) :
    ofDigits 10 digits < 10 ^ digits.length := by
  induction digits with
  | nil => simp [ofDigits]
  | cons d digits ih =>
      have hd := h d List.mem_cons_self
      have hrest := ih fun e he => h e (List.mem_cons_of_mem d he)
      rw [ofDigits_cons, List.length_cons, Nat.pow_succ]
      have hmul := Nat.mul_le_mul_right (10 ^ digits.length) (Nat.le_of_lt_succ hd)
      omega

theorem ofDigits_dropWhile_zero (digits : List Nat) :
    ofDigits 10 (digits.dropWhile (· = 0)) = ofDigits 10 digits := by
  induction digits with
  | nil => rfl
  | cons d digits ih =>
      by_cases hd : d = 0
      · rw [List.dropWhile_cons_of_pos (by simp [hd]), ih, ofDigits_cons, hd]
        simp
      · rw [List.dropWhile_cons_of_neg (by simp [hd])]

/-- Without leading zeros the number of digits tells the size. -/
theorem le_ofDigits_dropWhile_zero
    {digits : List Nat} (hne : digits.dropWhile (· = 0) ≠ []) :
    10 ^ ((digits.dropWhile (· = 0)).length - 1) ≤ ofDigits 10 (digits.dropWhile (· = 0)) := by
  have hhead := List.head_dropWhile_not (fun d : Nat => decide (d = 0)) hne
  obtain ⟨d, rest, hcons⟩ := List.exists_cons_of_ne_nil hne
  simp only [hcons, List.head_cons, decide_eq_false_iff_not] at hhead
  rw [hcons, ofDigits_cons, List.length_cons, Nat.add_sub_cancel]
  have hmul := Nat.mul_le_mul_right (10 ^ rest.length) (Nat.pos_of_ne_zero hhead)
  omega

section LeadingDigit

variable {digits : List Nat} {place : Int}

theorem ofDigits_lt_zpow (hdigits : ∀ d ∈ digits, d < 10) :
    (ofDigits 10 digits : ℚ) < 10 ^ ((digits.dropWhile (· = 0)).length : Int) := by
  have hsmall : ∀ d ∈ digits.dropWhile (· = 0), d < 10 := fun d hd =>
    hdigits d ((List.dropWhile_sublist _).subset hd)
  rw [← ofDigits_dropWhile_zero, zpow_natCast]
  exact_mod_cast ofDigits_lt hsmall

theorem zpow_le_ofDigits (hne : digits.dropWhile (· = 0) ≠ []) :
    (10 : ℚ) ^ ((digits.dropWhile (· = 0)).length - 1 : Int) ≤ ofDigits 10 digits := by
  have hlength : 0 < (digits.dropWhile (· = 0)).length := List.length_pos_iff.2 hne
  have hcast : ((digits.dropWhile (· = 0)).length - 1 : Int) =
      (((digits.dropWhile (· = 0)).length - 1 : Nat) : Int) := by omega
  rw [← ofDigits_dropWhile_zero, hcast, zpow_natCast]
  exact_mod_cast le_ofDigits_dropWhile_zero hne

/-- The leading digit of a decimal stands no higher than the decimal is. -/
theorem place_le_of_lt
    (hne : digits.dropWhile (· = 0) ≠ []) {top : Int}
    (hvalue : (ofDigits 10 digits : ℚ) * 10 ^ place < 10 ^ top) :
    place + (digits.dropWhile (· = 0)).length ≤ top := by
  by_contra hlt
  have hpower : (0 : ℚ) < 10 ^ place := by positivity
  have hmono : (10 : ℚ) ^ top ≤ 10 ^ ((digits.dropWhile (· = 0)).length - 1 + place : Int) :=
    zpow_le_zpow_right₀ (by norm_num) (by omega)
  rw [zpow_add₀ (by norm_num)] at hmono
  have habove := mul_le_mul_of_nonneg_right (zpow_le_ofDigits hne) hpower.le
  linarith

theorem lt_place_of_le
    (hdigits : ∀ d ∈ digits, d < 10) {bottom : Int}
    (hvalue : (10 : ℚ) ^ bottom ≤ ofDigits 10 digits * 10 ^ place) :
    bottom < place + (digits.dropWhile (· = 0)).length := by
  by_contra hle
  have hpower : (0 : ℚ) < 10 ^ place := by positivity
  have hmono : (10 : ℚ) ^ ((digits.dropWhile (· = 0)).length + place : Int) ≤ 10 ^ bottom :=
    zpow_le_zpow_right₀ (by norm_num) (by omega)
  rw [zpow_add₀ (by norm_num)] at hmono
  have hbelow := mul_lt_mul_of_pos_right (ofDigits_lt_zpow hdigits) hpower
  linarith

end LeadingDigit

/-! ## The range of the numbers -/

theorem two_pow_le_ten_pow : (2 : ℚ) ^ (1024 : Int) ≤ 10 ^ (320 : Int) := by
  have hstep : (2 : ℚ) ^ 16 ≤ 10 ^ 5 := by norm_num
  have hpow := pow_le_pow_left₀ (by norm_num) hstep 64
  rw [← pow_mul, ← pow_mul, ← zpow_natCast, ← zpow_natCast] at hpow
  exact hpow

theorem ten_pow_le_two_pow : (10 : ℚ) ^ (-331 : Int) ≤ 2 ^ (-1075 : Int) := by
  have hstep : (2 : ℚ) ^ 23 ≤ 10 ^ 7 := by norm_num
  have hpow := pow_le_pow_left₀ (by norm_num) hstep 47
  rw [← pow_mul, ← pow_mul] at hpow
  have htwo : (2 : ℚ) ^ 1075 ≤ 2 ^ (23 * 47) := pow_le_pow_right₀ (by norm_num) (by norm_num)
  have hten : (10 : ℚ) ^ (7 * 47) ≤ 10 ^ 331 := pow_le_pow_right₀ (by norm_num) (by norm_num)
  have hle := (htwo.trans hpow).trans hten
  rw [zpow_neg, zpow_neg]
  apply inv_anti₀ (by positivity)
  exact_mod_cast hle

theorem IsSize.lt_of_roundsTo
    {mantissa : Nat} {exponent : Int} {value : ℚ} (hsize : IsSize mantissa exponent)
    (h : RoundsTo mantissa exponent value) :
    value < 10 ^ (320 : Int) := by
  have hbound : (mantissa : ℚ) + 1 ≤ 2 ^ 53 := by exact_mod_cast hsize.lt
  have hpower : (0 : ℚ) < 2 ^ exponent := by positivity
  have hmono : (2 : ℚ) ^ exponent ≤ 2 ^ (971 : Int) :=
    zpow_le_zpow_right₀ (by norm_num) hsize.most
  calc value ≤ (mantissa + 1 / 2) * 2 ^ exponent := h.high
    _ < 2 ^ 53 * 2 ^ exponent := by
        apply mul_lt_mul_of_pos_right _ hpower
        linarith
    _ ≤ 2 ^ 53 * 2 ^ (971 : Int) := by
        apply mul_le_mul_of_nonneg_left hmono
        norm_num
    _ = 2 ^ (1024 : Int) := by
        rw [← zpow_natCast, ← zpow_add₀ (by norm_num)]
        norm_num
    _ ≤ 10 ^ (320 : Int) := two_pow_le_ten_pow

theorem IsSize.le_of_roundsTo
    {mantissa : Nat} {exponent : Int} {value : ℚ} (hsize : IsSize mantissa exponent)
    (h : RoundsTo mantissa exponent value) :
    10 ^ (-331 : Int) ≤ value := by
  have hone : (1 : ℚ) ≤ mantissa := by exact_mod_cast hsize.pos
  have hpower : (0 : ℚ) < 2 ^ exponent := by positivity
  have hmono : (2 : ℚ) ^ (-1074 : Int) ≤ 2 ^ exponent :=
    zpow_le_zpow_right₀ (by norm_num) hsize.least
  have hhalf : (2 : ℚ) ^ (-1075 : Int) = 1 / 2 * 2 ^ (-1074 : Int) := by
    rw [show (-1075 : Int) = -1074 - 1 from rfl, zpow_two_sub_one]
    ring
  calc (10 : ℚ) ^ (-331 : Int) ≤ 2 ^ (-1075 : Int) := ten_pow_le_two_pow
    _ = 1 / 2 * 2 ^ (-1074 : Int) := hhalf
    _ ≤ 1 / 2 * 2 ^ exponent := by linarith
    _ ≤ (mantissa - 1 / 2) * 2 ^ exponent := by
        apply mul_le_mul_of_nonneg_right _ hpower.le
        linarith
    _ ≤ value := h.low

/-! ## Reading -/

/-- The number with a sign and the bits of a size. -/
def ofSizeBits (negative : Bool) (bits : Nat) : Float :=
  Float.ofBits (UInt64.ofNat (if negative then bits + Nat.pow 2 63 else bits))

theorem ofQuotient_of_roundsTo
    {mantissa num den : Nat} {exponent : Int} (hsize : IsSize mantissa exponent) (hden : den ≠ 0)
    (h : RoundsTo mantissa exponent (num / den)) (negative : Bool) :
    ofQuotient negative num den =
      ofSizeBits negative ((exponent + 1074).toNat * 2 ^ 52 + mantissa) := by
  rw [ofQuotient, nearestBits_of_roundsTo hsize hden h, ofSizeBits]

theorem ofDecimal_of_roundsTo
    {mantissa : Nat} {exponent : Int} (hsize : IsSize mantissa exponent)
    {digits : List Nat} (hdigits : ∀ d ∈ digits, d < 10) {place : Int}
    (h : RoundsTo mantissa exponent (ofDigits 10 digits * 10 ^ place)) (negative : Bool) :
    ofDecimal negative digits place =
      ofSizeBits negative ((exponent + 1074).toNat * 2 ^ 52 + mantissa) := by
  have hne : digits.dropWhile (· = 0) ≠ [] := by
    intro hnil
    have hvalue := h.pos hsize.pos
    rw [← ofDigits_dropWhile_zero, hnil] at hvalue
    simp [ofDigits] at hvalue
  have hnotSmall := lt_place_of_le hdigits (hsize.le_of_roundsTo h)
  have hnotLarge := place_le_of_lt hne (hsize.lt_of_roundsTo h)
  rw [← ofDigits_dropWhile_zero] at h
  unfold ofDecimal
  dsimp only
  rw [if_neg, if_neg (not_lt.2 hnotLarge)]
  · cases place with
    | ofNat e =>
        apply ofQuotient_of_roundsTo hsize Nat.one_ne_zero
        rw [Int.ofNat_eq_natCast, zpow_natCast] at h
        rw [Nat.cast_one, div_one, Nat.pow_eq]
        exact_mod_cast h
    | negSucc e =>
        apply ofQuotient_of_roundsTo hsize (Nat.pos_iff_ne_zero.1 (Nat.pow_pos (by decide)))
        rw [zpow_negSucc, ← div_eq_mul_inv] at h
        exact_mod_cast h
  · simp only [Bool.or_eq_true, List.isEmpty_iff, decide_eq_true_eq, not_or]
    exact ⟨hne, by omega⟩

theorem digit_lt {c : Char} (h : isAsciiDigit c) : c.toNat - '0'.toNat < 10 := by
  simp only [isAsciiDigit, Bool.and_eq_true, decide_eq_true_eq, Char.le_def] at h
  have hle : c.toNat ≤ '9'.toNat := h.2
  have hnine : '9'.toNat = 57 := rfl
  have hzero : '0'.toNat = 48 := rfl
  omega

theorem Spelling.IsWritten.read_of_roundsTo
    {n : Spelling} (h : n.IsWritten) {mantissa : Nat} {exponent : Int}
    (hsize : IsSize mantissa exponent) (hrounds : RoundsTo mantissa exponent n.value)
    (negative : Bool) :
    readUnsigned negative n.text =
      some (ofSizeBits negative ((exponent + 1074).toNat * 2 ^ 52 + mantissa)) := by
  rw [h.readUnsigned_text]
  apply congrArg some
  apply ofDecimal_of_roundsTo hsize
  · intro d hd
    obtain ⟨c, hc, rfl⟩ := List.mem_map.1 hd
    rcases List.mem_append.1 hc with hwhole | hfraction
    · exact digit_lt (h.whole_digits c hwhole)
    · exact digit_lt (h.fraction_digits c hfraction)
  · rw [ofDigits_map_digits]
    exact hrounds

/-- The text of a finite number is a sign and a numeral that is read as the bits of its size. -/
theorem write_finite
    {layout : Layout} (hpoint : layout.pointBeforeExponent = true)
    {x : Float} {negative : Bool} {mantissa : Nat} {exponent : Int}
    (hx : decode x = .finite negative mantissa exponent) :
    ∃ n : Spelling, n.IsWritten ∧
      (layout.write x).toList = (if negative then '-' :: n.text else n.text) ∧
      readUnsigned false n.text =
        some (Float.ofBits (UInt64.ofNat ((exponent + 1074).toNat * 2 ^ 52 + mantissa))) := by
  obtain ⟨-, hsize⟩ := toNat_of_decode_finite hx
  have hnumeral : ∃ n : Spelling, n.IsWritten ∧
      n.text = (if mantissa = 0 then ['0', '.', '0']
        else layout.positive (shortest mantissa exponent)) ∧
      readUnsigned false n.text =
        some (Float.ofBits (UInt64.ofNat ((exponent + 1074).toNat * 2 ^ 52 + mantissa))) := by
    rcases hsize with ⟨hzero, hexponent⟩ | hsize
    · refine ⟨⟨['0'], ['0'], none⟩, ?_, ?_, ?_⟩
      · constructor <;> simp [isAsciiDigit]
      · rw [if_pos hzero]
        rfl
      · rw [hzero, hexponent]
        rfl
    · obtain ⟨n, hwritten, htext, hvalue⟩ := positive_numeral hpoint hsize.digits_pos
      have hrounds := hsize.roundsTo_shortest
      rw [← hvalue] at hrounds
      refine ⟨n, hwritten, ?_, hwritten.read_of_roundsTo hsize hrounds false⟩
      rw [htext, if_neg (Nat.pos_iff_ne_zero.1 hsize.pos)]
  obtain ⟨n, hwritten, htext, hread⟩ := hnumeral
  refine ⟨n, hwritten, ?_, hread⟩
  unfold Layout.write
  rw [hx]
  dsimp only
  rw [String.toList_ofList, htext]

end Arranger.Decimal
