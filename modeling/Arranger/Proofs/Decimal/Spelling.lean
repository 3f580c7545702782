import Arranger.Decimal.Layout
import Arranger.Decimal.Reading
import Arranger.Proofs.Decimal.Shortest
import Arranger.Proofs.Decimal.Written

/-!
# Written decimals

The text of a positive decimal has a whole part, a point and a fraction, and perhaps an exponent.
Its digits, counted in units of their last place, have the value of the decimal.
-/

namespace Arranger.Decimal

open Arranger.Text

/-! ## Digits -/

theorem isNumeralChar_of_isAsciiDigit {c : Char} (h : isAsciiDigit c) : IsNumeralChar c := .inl h

/-- The number that a run of digits denotes. -/
def digitsValue (digits : List Char) : Nat := Nat.ofDigitChars 10 digits 0

theorem digitsValue_append (digits more : List Char) :
    digitsValue (digits ++ more) = 10 ^ more.length * digitsValue digits + digitsValue more := by
  unfold digitsValue
  rw [Nat.ofDigitChars_append, Nat.ofDigitChars_eq_ofDigitChars_zero]

theorem digitsValue_zeros (n : Nat) : digitsValue (List.replicate n '0') = 0 := by
  rw [digitsValue, Nat.ofDigitChars_replicate_zero, Nat.mul_zero]

theorem digitsValue_append_zeros (digits : List Char) (n : Nat) :
    digitsValue (digits ++ List.replicate n '0') = 10 ^ n * digitsValue digits := by
  rw [digitsValue_append, digitsValue_zeros, List.length_replicate, Nat.add_zero]

theorem digitsValue_zeros_append (n : Nat) (digits : List Char) :
    digitsValue (List.replicate n '0' ++ digits) = digitsValue digits := by
  rw [digitsValue_append, digitsValue_zeros, Nat.mul_zero, Nat.zero_add]

theorem digitsValue_toDigits (n : Nat) : digitsValue (Nat.toDigits 10 n) = n :=
  Nat.ofDigitChars_ten_toDigits

theorem ofDigits_map_digits (digits : List Char) :
    ofDigits 10 (digits.map fun c => c.toNat - '0'.toNat) = digitsValue digits := by
  rw [ofDigits, List.foldl_map, digitsValue, Nat.ofDigitChars_eq_foldl]

/-! ## Spellings -/

structure Spelling where
  whole : List Char
  fraction : List Char
  /-- The sign of the exponent and its digits. -/
  exponent : Option (Bool × List Char)

namespace Spelling

def exponentText (n : Spelling) : List Char :=
  match n.exponent with
  | none => []
  | some (negative, digits) => 'e' :: (if negative then '-' else '+') :: digits

def text (n : Spelling) : List Char := n.whole ++ '.' :: (n.fraction ++ n.exponentText)

/-- The exponent of the last place. -/
def lastPlace (n : Spelling) : Int :=
  (match n.exponent with
    | none => 0
    | some (negative, digits) => signed negative (digitsValue digits)) - n.fraction.length

def value (n : Spelling) : ℚ := digitsValue (n.whole ++ n.fraction) * 10 ^ n.lastPlace

structure IsWritten (n : Spelling) : Prop where
  whole_ne : n.whole ≠ []
  whole_digits : ∀ c ∈ n.whole, isAsciiDigit c
  fraction_digits : ∀ c ∈ n.fraction, isAsciiDigit c
  exponent_digits : ∀ negative digits, n.exponent = some (negative, digits) →
    digits ≠ [] ∧ ∀ c ∈ digits, isAsciiDigit c

theorem IsWritten.isNumeralChar {n : Spelling} (h : n.IsWritten) :
    ∀ c ∈ n.text, IsNumeralChar c := by
  intro c hc
  simp only [text, List.mem_append, List.mem_cons] at hc
  rcases hc with hwhole | rfl | hfraction | hexponent
  · exact isNumeralChar_of_isAsciiDigit (h.whole_digits c hwhole)
  · exact .inr (.inl rfl)
  · exact isNumeralChar_of_isAsciiDigit (h.fraction_digits c hfraction)
  · unfold exponentText at hexponent
    split at hexponent
    · exact absurd hexponent List.not_mem_nil
    · next negative digits hsome =>
      simp only [List.mem_cons] at hexponent
      rcases hexponent with rfl | rfl | hdigit
      · exact .inr (.inr (.inl rfl))
      · cases negative
        · exact .inr (.inr (.inr (.inl rfl)))
        · exact .inr (.inr (.inr (.inr rfl)))
      · exact isNumeralChar_of_isAsciiDigit ((h.exponent_digits negative digits hsome).2 c hdigit)

/-- A numeral begins with a digit. -/
theorem IsWritten.exists_head {n : Spelling} (h : n.IsWritten) :
    ∃ d rest, n.text = d :: rest ∧ isAsciiDigit d = true := by
  obtain ⟨d, rest, hcons⟩ := List.exists_cons_of_ne_nil h.whole_ne
  refine ⟨d, rest ++ '.' :: (n.fraction ++ n.exponentText), by simp [text, hcons], ?_⟩
  exact h.whole_digits d (by simp [hcons])

theorem not_isAsciiDigit_head_exponentText (n : Spelling) :
    ∀ c ∈ n.exponentText.head?, isAsciiDigit c = false := by
  intro c hc
  unfold exponentText at hc
  split at hc
  · simp at hc
  · have hmark : 'e' = c := by simpa using hc
    rw [← hmark]
    decide

end Spelling

theorem takeWhile_append_of_stop
    {p : Char → Bool} {run rest : List Char} (hrun : ∀ c ∈ run, p c)
    (hstop : ∀ c ∈ rest.head?, p c = false) :
    (run ++ rest).takeWhile p = run ∧ (run ++ rest).dropWhile p = rest := by
  rw [List.takeWhile_append_of_pos hrun, List.dropWhile_append_of_pos hrun]
  cases rest with
  | nil => simp
  | cons c rest =>
      have hc : p c = false := hstop c rfl
      simp [hc]

theorem mapM_asciiDigitValue? {digits : List Char} (h : ∀ c ∈ digits, isAsciiDigit c) :
    digits.mapM asciiDigitValue? = some (digits.map fun c => c.toNat - '0'.toNat) := by
  induction digits with
  | nil => rfl
  | cons c digits ih =>
      have hc : isAsciiDigit c = true := h c List.mem_cons_self
      have hrest := ih fun d hd => h d (List.mem_cons_of_mem c hd)
      simp [asciiDigitValue?, hc, hrest]

namespace Spelling

theorem IsWritten.readExponent_exponentText {n : Spelling} (h : n.IsWritten) :
    readExponent n.exponentText = some (n.lastPlace + n.fraction.length) := by
  have hdigits := h.exponent_digits
  unfold exponentText lastPlace
  cases hexponent : n.exponent with
  | none => simp [readExponent]
  | some written =>
      obtain ⟨negative, digits⟩ := written
      obtain ⟨hne, hall⟩ := hdigits negative digits hexponent
      have hsplit : splitSign ((if negative then '-' else '+') :: digits) = (negative, digits) := by
        cases negative <;> rfl
      have hempty : digits.isEmpty = false := by
        rwa [List.isEmpty_eq_false_iff]
      simp only [readExponent, hsplit, hempty, mapM_asciiDigitValue? hall, Option.map_some,
        ofDigits_map_digits]
      simp

/-- A numeral is read as the number of its digits and the exponent of its last place. -/
theorem IsWritten.readUnsigned_text {n : Spelling} (h : n.IsWritten) (negative : Bool) :
    readUnsigned negative n.text =
      some (ofDecimal negative ((n.whole ++ n.fraction).map fun c => c.toNat - '0'.toNat)
        n.lastPlace) := by
  have hpoint : ∀ c ∈ ('.' :: (n.fraction ++ n.exponentText)).head?, isAsciiDigit c = false := by
    intro c hc
    have hc' : '.' = c := by simpa using hc
    rw [← hc']
    decide
  obtain ⟨hwhole, hafter⟩ := takeWhile_append_of_stop h.whole_digits hpoint
  obtain ⟨hfraction, htail⟩ :=
    takeWhile_append_of_stop h.fraction_digits n.not_isAsciiDigit_head_exponentText
  have hempty : n.whole.isEmpty = false := List.isEmpty_eq_false_iff.2 h.whole_ne
  unfold readUnsigned text
  simp only [hwhole, hafter, hfraction, htail, hempty, Bool.false_and, Bool.false_eq_true, if_false,
    h.readExponent_exponentText, Option.map_some, Int.add_sub_cancel]

theorem value_of_digits
    {n : Spelling} {digits : Nat} {place : Int} (shift : Nat)
    (hdigits : digitsValue (n.whole ++ n.fraction) = 10 ^ shift * digits)
    (hplace : n.lastPlace = place - shift) :
    n.value = digits * 10 ^ place := by
  have hten : (10 : ℚ) ≠ 0 := by norm_num
  have hpower : (10 : ℚ) ^ place = 10 ^ shift * 10 ^ (place - shift) := by
    rw [← zpow_natCast, ← zpow_add₀ hten]
    congr 1
    omega
  rw [value, hdigits, hplace, hpower]
  push_cast
  ring

end Spelling

/-! ## Layouts -/

theorem dropTrailingZeros_append (digits : List Char) :
    ∃ zeros, dropTrailingZeros digits ++ List.replicate zeros '0' = digits := by
  have hzeros : ∀ c ∈ digits.reverse.takeWhile (· = '0'), c = '0' := by
    intro c hc
    have hall := List.all_eq_true.1 List.all_takeWhile c hc
    exact of_decide_eq_true hall
  have hreplicate := List.eq_replicate_of_mem hzeros
  refine ⟨(digits.reverse.takeWhile (· = '0')).length, ?_⟩
  rw [← List.reverse_inj, List.reverse_append, List.reverse_replicate, ← hreplicate,
    dropTrailingZeros, List.reverse_reverse]
  exact List.takeWhile_append_dropWhile

theorem isAsciiDigit_of_mem_zeros {n : Nat} {c : Char} (h : c ∈ List.replicate n '0') :
    isAsciiDigit c := by
  rw [List.eq_of_mem_replicate h]
  decide

section Positional

variable {digits : List Char} {leading : Int}

/-- Below one the digits stand behind the point, and zeros in front of them. -/
theorem positional_numeral_of_neg
    (hdigits : ∀ c ∈ digits, isAsciiDigit c) (hnegative : leading < 0) :
    ∃ n : Spelling, n.IsWritten ∧ n.text = positional digits leading ∧
      n.value = digitsValue digits * 10 ^ (leading + 1 - digits.length) := by
  refine ⟨⟨['0'], List.replicate (-leading - 1).toNat '0' ++ digits, none⟩, ?_, ?_, ?_⟩
  · constructor
    · simp
    · simp [isAsciiDigit]
    · intro c hc
      rcases List.mem_append.1 hc with hzero | hdigit
      · exact isAsciiDigit_of_mem_zeros hzero
      · exact hdigits c hdigit
    · simp
  · simp [Spelling.text, Spelling.exponentText, positional, hnegative]
  · apply Spelling.value_of_digits 0
    · have hzero : ['0'] = List.replicate 1 '0' := rfl
      rw [Nat.pow_zero, Nat.one_mul]
      simp only [hzero, digitsValue_zeros_append]
    · simp only [Spelling.lastPlace, List.length_append, List.length_replicate]
      omega

/-- Without digits behind the point zeros fill the whole part, and one stands behind the point. -/
theorem positional_numeral_of_length_le
    (hdigits : ∀ c ∈ digits, isAsciiDigit c) {whole : Nat} (hwhole : leading = whole)
    (hshort : digits.length ≤ whole + 1) :
    ∃ n : Spelling, n.IsWritten ∧ n.text = positional digits leading ∧
      n.value = digitsValue digits * 10 ^ (leading + 1 - digits.length) := by
  refine ⟨⟨digits ++ List.replicate (whole + 1 - digits.length) '0', ['0'], none⟩, ?_, ?_, ?_⟩
  · constructor
    · intro hnil
      have hlength := congrArg List.length hnil
      simp only [List.length_append, List.length_replicate, List.length_nil] at hlength
      omega
    · intro c hc
      rcases List.mem_append.1 hc with hdigit | hzero
      · exact hdigits c hdigit
      · exact isAsciiDigit_of_mem_zeros hzero
    · simp [isAsciiDigit]
    · simp
  · simp [Spelling.text, Spelling.exponentText, positional, hwhole, Int.not_lt.2,
      List.take_of_length_le hshort, List.drop_eq_nil_of_le hshort]
  · apply Spelling.value_of_digits (whole + 1 - digits.length + 1)
    · have hzero : ['0'] = List.replicate 1 '0' := rfl
      dsimp only
      rw [List.append_assoc, hzero, List.replicate_append_replicate, digitsValue_append_zeros]
    · simp only [Spelling.lastPlace, List.length_singleton]
      omega

/-- The point stands between the digits. -/
theorem positional_numeral_of_lt_length
    (hdigits : ∀ c ∈ digits, isAsciiDigit c) {whole : Nat} (hwhole : leading = whole)
    (hlong : whole + 1 < digits.length) :
    ∃ n : Spelling, n.IsWritten ∧ n.text = positional digits leading ∧
      n.value = digitsValue digits * 10 ^ (leading + 1 - digits.length) := by
  have hdrop : digits.drop (whole + 1) ≠ [] := by
    rw [ne_eq, List.drop_eq_nil_iff]
    exact Nat.not_le.2 hlong
  have hzeros : whole + 1 - digits.length = 0 := by omega
  refine ⟨⟨digits.take (whole + 1), digits.drop (whole + 1), none⟩, ?_, ?_, ?_⟩
  · constructor
    · intro hnil
      have hlength := congrArg List.length hnil
      simp only [List.length_take, List.length_nil] at hlength
      omega
    · exact fun c hc => hdigits c (List.mem_of_mem_take hc)
    · exact fun c hc => hdigits c (List.mem_of_mem_drop hc)
    · simp
  · simp [Spelling.text, Spelling.exponentText, positional, hwhole, Int.not_lt.2, hdrop, hzeros]
  · apply Spelling.value_of_digits 0
    · simp
    · simp only [Spelling.lastPlace, List.length_drop]
      omega

theorem positional_numeral (hdigits : ∀ c ∈ digits, isAsciiDigit c) (leading : Int) :
    ∃ n : Spelling, n.IsWritten ∧ n.text = positional digits leading ∧
      n.value = digitsValue digits * 10 ^ (leading + 1 - digits.length) := by
  rcases Int.lt_or_le leading 0 with hnegative | hpositive
  · exact positional_numeral_of_neg hdigits hnegative
  · have hwhole : leading = leading.toNat := (Int.toNat_of_nonneg hpositive).symm
    rcases Nat.lt_or_ge (leading.toNat + 1) digits.length with hlong | hshort
    · exact positional_numeral_of_lt_length hdigits hwhole hlong
    · exact positional_numeral_of_length_le hdigits hwhole hshort

end Positional

theorem signed_natAbs (i : Int) : signed (i < 0) i.natAbs = i := by
  unfold signed
  simp only [decide_eq_true_eq]
  split <;> omega

theorem digitsValue_padLeft (width n : Nat) :
    digitsValue (padLeft width (Nat.toDigits 10 n)) = n := by
  rw [padLeft, digitsValue_zeros_append, digitsValue_toDigits]

theorem padLeft_ne_nil (width n : Nat) : padLeft width (Nat.toDigits 10 n) ≠ [] := by
  simp [padLeft, Nat.toDigits_ne_nil]

theorem isAsciiDigit_of_mem_padLeft {width n : Nat} {c : Char}
    (h : c ∈ padLeft width (Nat.toDigits 10 n)) : isAsciiDigit c = true := by
  rcases List.mem_append.1 h with hzero | hdigit
  · exact isAsciiDigit_of_mem_zeros hzero
  · exact Nat.isDigit_of_mem_toDigits (by decide) (by decide) hdigit

/-- A text with an exponent is a numeral if a point stands in every mantissa. -/
theorem withExponent_numeral
    {layout : Layout} (hpoint : layout.pointBeforeExponent = true)
    {digits : List Char} (hne : digits ≠ []) (hdigits : ∀ c ∈ digits, isAsciiDigit c)
    (leading : Int) :
    ∃ n : Spelling, n.IsWritten ∧ n.text = withExponent layout digits leading ∧
      n.value = digitsValue digits * 10 ^ (leading + 1 - digits.length) := by
  obtain ⟨exponent, hexponent⟩ : ∃ exponent, exponent =
      padLeft layout.exponentWidth (Nat.toDigits 10 leading.natAbs) := ⟨_, rfl⟩
  have hexponentValue : digitsValue exponent = leading.natAbs :=
    hexponent ▸ digitsValue_padLeft _ _
  have hexponentDigits : exponent ≠ [] ∧ ∀ c ∈ exponent, isAsciiDigit c := by
    rw [hexponent]
    exact ⟨padLeft_ne_nil _ _, fun c hc => isAsciiDigit_of_mem_padLeft hc⟩
  obtain ⟨first, rest, rfl⟩ := List.exists_cons_of_ne_nil hne
  have hfirst : isAsciiDigit first = true := hdigits first List.mem_cons_self
  refine ⟨⟨[first], if rest.isEmpty then ['0'] else rest, some (leading < 0, exponent)⟩, ?_, ?_, ?_⟩
  · constructor
    · simp
    · simpa using hfirst
    · intro c hc
      dsimp only at hc
      split at hc
      · rw [List.mem_singleton.1 hc]
        decide
      · exact hdigits c (List.mem_cons_of_mem first hc)
    · intro negative written hsome
      have hwritten : exponent = written := by
        simp only [Option.some.injEq, Prod.mk.injEq] at hsome
        exact hsome.2
      rwa [← hwritten]
  · simp only [withExponent, ← hexponent, hpoint, Spelling.text, Spelling.exponentText]
    cases rest <;> simp
  · have hsigned : signed (leading < 0) leading.natAbs = leading := signed_natAbs leading
    cases rest with
    | nil =>
        apply Spelling.value_of_digits 1
        · exact digitsValue_append_zeros [first] 1
        · simp only [Spelling.lastPlace, hexponentValue, hsigned]
          simp
    | cons second rest =>
        apply Spelling.value_of_digits 0
        · simp
        · simp only [Spelling.lastPlace, hexponentValue, hsigned]
          simp

/-- The text of a positive decimal is a numeral of its value. -/
theorem positive_numeral
    {layout : Layout} (hpoint : layout.pointBeforeExponent = true)
    {decimal : Scientific} (hpos : 0 < decimal.digits) :
    ∃ n : Spelling, n.IsWritten ∧ n.text = layout.positive decimal ∧ n.value = decimal.value := by
  obtain ⟨written, hwritten⟩ : ∃ written, written = Nat.toDigits 10 decimal.digits := ⟨_, rfl⟩
  obtain ⟨digits, hdigits⟩ : ∃ digits, digits = dropTrailingZeros written := ⟨_, rfl⟩
  obtain ⟨zeros, hzeros⟩ := dropTrailingZeros_append written
  rw [← hdigits] at hzeros
  have hnumber : decimal.digits = 10 ^ zeros * digitsValue digits := by
    rw [← digitsValue_append_zeros, hzeros, hwritten, digitsValue_toDigits]
  have hne : digits ≠ [] := by
    rintro rfl
    rw [hnumber] at hpos
    exact absurd hpos (by simp [digitsValue])
  have hall : ∀ c ∈ digits, isAsciiDigit c := by
    intro c hc
    have hmem : c ∈ Nat.toDigits 10 decimal.digits := by
      rw [← hwritten, ← hzeros]
      exact List.mem_append_left _ hc
    exact Nat.isDigit_of_mem_toDigits (by decide) (by decide) hmem
  obtain ⟨leading, hleading⟩ : ∃ leading, leading = decimal.exponent + written.length - 1 := ⟨_, rfl⟩
  have hvalue : decimal.value = digitsValue digits * 10 ^ (leading + 1 - digits.length) := by
    have hten : (10 : ℚ) ≠ 0 := by norm_num
    have hplace : leading + 1 - digits.length = zeros + decimal.exponent := by
      rw [hleading, ← hzeros, List.length_append, List.length_replicate]
      omega
    rw [hplace, zpow_add₀ hten, zpow_natCast, Scientific.value, hnumber]
    push_cast
    ring
  rw [hvalue]
  unfold Layout.positive
  dsimp only
  rw [← hwritten, ← hdigits, ← hleading]
  split
  · exact positional_numeral hall leading
  · exact withExponent_numeral hpoint hne hall leading

end Arranger.Decimal
