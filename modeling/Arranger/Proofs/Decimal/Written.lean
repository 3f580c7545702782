import Arranger.Decimal.Layout

/-!
# The characters of written numbers

A number is written with digits, a point, signs and the mark of an exponent, or as one of the
words of its layout.  No comma, blank or bracket occurs in it, and it is never empty.
-/

namespace Arranger.Decimal

/-- The characters of a number that is not written as a word. -/
def IsNumeralChar (c : Char) : Prop := c.isDigit ∨ c = '.' ∨ c = 'e' ∨ c = '+' ∨ c = '-'

theorem isNumeralChar_of_mem_toDigits {n : Nat} {c : Char} (h : c ∈ Nat.toDigits 10 n) :
    IsNumeralChar c :=
  .inl (Nat.isDigit_of_mem_toDigits (by decide) (by decide) h)

theorem isNumeralChar_zero : IsNumeralChar '0' := .inl (by decide)

theorem mem_of_mem_dropTrailingZeros {digits : List Char} {c : Char}
    (h : c ∈ dropTrailingZeros digits) : c ∈ digits := by
  have hdropped : c ∈ digits.reverse.dropWhile (· = '0') := by
    simpa [dropTrailingZeros] using h
  exact List.mem_reverse.1 ((List.dropWhile_sublist _).subset hdropped)

theorem isNumeralChar_of_mem_positional
    {digits : List Char} (hdigits : ∀ c ∈ digits, IsNumeralChar c)
    (leading : Int) {c : Char} (h : c ∈ positional digits leading) :
    IsNumeralChar c := by
  unfold positional at h
  split at h
  · simp only [List.mem_cons, List.mem_append] at h
    rcases h with rfl | rfl | hzero | hdigit
    · exact isNumeralChar_zero
    · exact .inr (.inl rfl)
    · rw [List.eq_of_mem_replicate hzero]
      exact isNumeralChar_zero
    · exact hdigits c hdigit
  · simp only [List.mem_append, List.mem_cons] at h
    rcases h with (hdigit | hzero) | rfl | hfraction
    · exact hdigits c (List.mem_of_mem_take hdigit)
    · rw [List.eq_of_mem_replicate hzero]
      exact isNumeralChar_zero
    · exact .inr (.inl rfl)
    · split at hfraction
      · rw [List.mem_singleton.1 hfraction]
        exact isNumeralChar_zero
      · exact hdigits c (List.mem_of_mem_drop hfraction)

theorem isNumeralChar_of_mem_withExponent
    (layout : Layout) {digits : List Char} (hdigits : ∀ c ∈ digits, IsNumeralChar c)
    (leading : Int) {c : Char} (h : c ∈ withExponent layout digits leading) :
    IsNumeralChar c := by
  unfold withExponent at h
  simp only [List.mem_append, List.mem_cons] at h
  rcases h with (hfirst | hfraction) | rfl | hsign | hexponent
  · exact hdigits c (List.mem_of_mem_take hfirst)
  · split at hfraction
    · split at hfraction
      · simp only [List.mem_cons, List.not_mem_nil, or_false] at hfraction
        rcases hfraction with rfl | rfl
        · exact .inr (.inl rfl)
        · exact isNumeralChar_zero
      · simp at hfraction
    · simp only [List.mem_cons] at hfraction
      rcases hfraction with rfl | hdigit
      · exact .inr (.inl rfl)
      · exact hdigits c (List.mem_of_mem_drop hdigit)
  · exact .inr (.inr (.inl rfl))
  · split at hsign
    · exact .inr (.inr (.inr (.inr hsign)))
    · exact .inr (.inr (.inr (.inl hsign)))
  · simp only [padLeft, List.mem_append] at hexponent
    rcases hexponent with hzero | hdigit
    · rw [List.eq_of_mem_replicate hzero]
      exact isNumeralChar_zero
    · exact isNumeralChar_of_mem_toDigits hdigit

theorem isNumeralChar_of_mem_positive
    (layout : Layout) (decimal : Scientific) {c : Char} (h : c ∈ layout.positive decimal) :
    IsNumeralChar c := by
  have hdigits : ∀ d ∈ dropTrailingZeros (Nat.toDigits 10 decimal.digits), IsNumeralChar d :=
    fun d hd => isNumeralChar_of_mem_toDigits (mem_of_mem_dropTrailingZeros hd)
  unfold Layout.positive at h
  dsimp only at h
  split at h
  · exact isNumeralChar_of_mem_positional hdigits _ h
  · exact isNumeralChar_of_mem_withExponent layout hdigits _ h

theorem positive_ne_nil (layout : Layout) (decimal : Scientific) :
    layout.positive decimal ≠ [] := by
  unfold Layout.positive
  dsimp only
  split
  · unfold positional
    split <;> simp
  · simp [withExponent]

/-- A written number is a word of its layout, or consists of the characters of numbers. -/
theorem Layout.write_cases (layout : Layout) (x : Float) :
    layout.write x ∈ [layout.nan, layout.infinity, layout.negativeInfinity] ∨
      layout.write x ≠ "" ∧ ∀ c ∈ (layout.write x).toList, IsNumeralChar c := by
  unfold Layout.write
  cases decode x with
  | nan => simp
  | infinite negative => cases negative <;> simp
  | finite negative mantissa exponent =>
      right
      have hsize : ∀ c ∈ (if mantissa = 0 then ['0', '.', '0']
          else layout.positive (shortest mantissa exponent)), IsNumeralChar c := by
        intro c hc
        split at hc
        · simp only [List.mem_cons, List.not_mem_nil, or_false] at hc
          rcases hc with rfl | rfl | rfl
          · exact isNumeralChar_zero
          · exact .inr (.inl rfl)
          · exact isNumeralChar_zero
        · exact isNumeralChar_of_mem_positive layout _ hc
      have hne : (if mantissa = 0 then ['0', '.', '0']
          else layout.positive (shortest mantissa exponent)) ≠ [] := by
        split
        · simp
        · exact positive_ne_nil layout _
      cases negative with
      | false =>
          refine ⟨?_, by simpa using hsize⟩
          rw [ne_eq, ← String.toList_inj]
          simpa using hne
      | true =>
          refine ⟨?_, ?_⟩
          · rw [ne_eq, ← String.toList_inj]
            simp
          · simp only [if_true, String.toList_ofList, List.mem_cons, forall_eq_or_imp]
            exact ⟨.inr (.inr (.inr (.inr rfl))), hsize⟩

end Arranger.Decimal
