import Arranger.Decimal.Reading
import Arranger.Proofs.Decimal.Spelling
import Arranger.Proofs.Results
import Arranger.Proofs.Text.Numbers
import Arranger.Theory.Numeral
import Mathlib.Data.Bool.AllAny

/-!
# Numeral tokens

A numeral is spelled by the mark of its accidental and the decimal digits of its degree, which may
be those of any script.  What is no numeral is refused as malformed, but for one case: digit signs
and very many digits count as digits until they are read as a number.
-/

namespace Arranger.Numeral

open Decimal (asciiDigitValue?)
open Text (digitLimit digitValue? isDigit ofDigits readInteger strip)

variable {symbol : String} {n : Numeral} {a : Accidental} {s body digits : List Char}

/-- The mark of the accidental and the digits of the degree, each with a value, make up a text. -/
structure IsSpelled (value? : Char → Option Nat) (n : Numeral) (s digits : List Char) : Prop where
  split : s = n.accidental.symbol.toList ++ digits
  ne_nil : digits ≠ []
  short : digits.length ≤ digitLimit
  isSome : ∀ c ∈ digits, (value? c).isSome = true
  degree : ofDigits 10 (digits.filterMap value?) = n.degree

/-- Behind the mark are digits, of which one has no value or which are too many. -/
def IsUnreadable (s : List Char) : Prop :=
  ∃ (a : Accidental) (digits : List Char), s = a.symbol.toList ++ digits ∧ digits ≠ [] ∧
    (∀ c ∈ digits, isDigit c = true) ∧
      (digitLimit < digits.length ∨ ∃ c ∈ digits, digitValue? c = none)

/-- All digits of a text are ASCII ones, and there are not too many of them behind a mark. -/
structure HasPlainDigits (s : List Char) : Prop where
  ascii : ∀ c ∈ s, isDigit c = true → Text.isAsciiDigit c = true
  short : ∀ (a : Accidental) (digits : List Char), s = a.symbol.toList ++ digits →
    (∀ c ∈ digits, isDigit c = true) → digits.length ≤ digitLimit

/-! ## Marks -/

theorem eq_append_of_splitAccidental (h : splitAccidental s = (a, body)) :
    s = a.symbol.toList ++ body := by
  unfold splitAccidental at h
  split at h
  · cases h
    rfl
  · cases h
    rfl
  · cases h
    rfl

/-- Marks are no digits. -/
theorem splitAccidental_append (h : ∀ c ∈ digits, isDigit c = true) :
    splitAccidental (a.symbol.toList ++ digits) = (a, digits) := by
  cases a with
  | flat => rfl
  | sharp => rfl
  | natural =>
      change splitAccidental digits = _
      unfold splitAccidental
      split
      · exact absurd rfl (Text.ne_of_isDigit (h 'b' List.mem_cons_self) (by decide +kernel))
      · exact absurd rfl (Text.ne_of_isDigit (h '#' List.mem_cons_self) (by decide +kernel))
      · rfl

/-! ## Reading -/

theorem toNat_pos_of_not_lt {degree : Int} (h : ¬degree < 1) : 0 < degree.toNat := by omega

theorem parse_of_digits (hs : strip symbol.toList = a.symbol.toList ++ digits) (hne : digits ≠ [])
    (h : ∀ c ∈ digits, isDigit c = true) :
    parse symbol = match readInteger (String.ofList digits) with
      | .error cause => .error (.value (.integer cause))
      | .ok degree =>
          if h : degree < 1 then .error (.token (.numeral (String.ofList digits)))
          else .ok ⟨degree.toNat, a, toNat_pos_of_not_lt h⟩ := by
  have hdigits : ¬(digits.isEmpty || !digits.all isDigit) = true := by
    simpa [hne] using h
  unfold parse
  rw [hs, splitAccidental_append h]
  exact if_neg hdigits

theorem parse_eq_ok_iff_of_digits (hs : strip symbol.toList = a.symbol.toList ++ digits)
    (hne : digits ≠ []) (h : ∀ c ∈ digits, isDigit c = true) :
    parse symbol = .ok n ↔ n.accidental = a ∧ digits.length ≤ digitLimit ∧
      (∀ c ∈ digits, (digitValue? c).isSome = true) ∧
        ofDigits 10 (digits.filterMap digitValue?) = n.degree := by
  have hpos := n.degree_pos
  rw [parse_of_digits hs hne h]
  constructor
  · intro hn
    split at hn
    · cases hn
    · next degree hread =>
      obtain ⟨hshort, hsome, hdegree⟩ := (Text.readInteger_eq_ok_iff hne h).1 hread
      split at hn
      · cases hn
      · cases hn
        exact ⟨rfl, hshort, hsome, by simp only; omega⟩
  · rintro ⟨rfl, hshort, hsome, hdegree⟩
    rw [(Text.readInteger_eq_ok_iff hne h).2 ⟨hshort, hsome, rfl⟩, hdegree]
    simp only
    rw [dif_neg (by omega)]
    rfl

theorem exists_error_iff_of_digits (hs : strip symbol.toList = a.symbol.toList ++ digits)
    (hne : digits ≠ []) (h : ∀ c ∈ digits, isDigit c = true) :
    (∃ cause, parse symbol = .error (.value (.integer cause))) ↔
      digitLimit < digits.length ∨ ∃ c ∈ digits, digitValue? c = none := by
  have hread : (∃ i, readInteger (String.ofList digits) = .ok i) ↔
      digits.length ≤ digitLimit ∧ ∀ c ∈ digits, (digitValue? c).isSome = true := by
    simp only [Text.readInteger_eq_ok_iff hne h]
    exact ⟨fun ⟨_, hshort, hsome, _⟩ => ⟨hshort, hsome⟩,
      fun ⟨hshort, hsome⟩ => ⟨_, hshort, hsome, rfl⟩⟩
  have hunread : (digitLimit < digits.length ∨ ∃ c ∈ digits, digitValue? c = none) ↔
      ¬∃ i, readInteger (String.ofList digits) = .ok i := by
    rw [hread, not_and_or, Nat.not_le]
    simp only [not_forall, exists_prop, Option.not_isSome_iff_eq_none]
  rw [hunread, parse_of_digits hs hne h]
  cases readInteger (String.ofList digits) with
  | error cause => simp
  | ok degree =>
      simp only [Except.ok.injEq, exists_eq', not_true, iff_false]
      split <;> simp

/-! ## All tokens -/

/-- Where no digits are behind the mark, the token is malformed. -/
theorem eq_digits_or_parse_eq_error (symbol : String) :
    (∃ (a : Accidental) (digits : List Char), strip symbol.toList = a.symbol.toList ++ digits ∧
      digits ≠ [] ∧ ∀ c ∈ digits, isDigit c = true) ∨
    (∀ (a : Accidental) (digits : List Char), strip symbol.toList = a.symbol.toList ++ digits →
      digits ≠ [] → ¬∀ c ∈ digits, isDigit c = true) ∧
        ∃ rest, parse symbol = .error (.token (.numeral rest)) := by
  obtain ⟨a, body, hsplit⟩ : ∃ a body, splitAccidental (strip symbol.toList) = (a, body) :=
    ⟨_, _, rfl⟩
  by_cases hbody : body ≠ [] ∧ ∀ c ∈ body, isDigit c = true
  · exact .inl ⟨a, body, eq_append_of_splitAccidental hsplit, hbody⟩
  · refine .inr ⟨?_, String.ofList body, ?_⟩
    · intro other digits hs hne hdigits
      rw [hs, splitAccidental_append hdigits] at hsplit
      cases hsplit
      exact hbody ⟨hne, hdigits⟩
    · have hempty : (body.isEmpty || !body.all isDigit) = true := by
        rw [not_and_or, not_not] at hbody
        simpa using hbody
      unfold parse
      rw [hsplit]
      simp only [if_pos hempty]

theorem IsSpelled.exists_mem {value? : Char → Option Nat} (h : n.IsSpelled value? s digits) :
    ∃ c ∈ s, (value? c).isSome = true := by
  obtain ⟨c, hc⟩ := List.exists_mem_of_ne_nil digits h.ne_nil
  rw [h.split]
  exact ⟨c, List.mem_append_right _ hc, h.isSome c hc⟩

theorem IsSpelled.isDigit (h : n.IsSpelled digitValue? s digits) :
    ∀ c ∈ digits, isDigit c = true := fun c hc => Text.isDigit_of_isSome (h.isSome c hc)

theorem parse_eq_ok_iff :
    parse symbol = .ok n ↔ ∃ digits, n.IsSpelled digitValue? (strip symbol.toList) digits := by
  constructor
  · intro hn
    rcases eq_digits_or_parse_eq_error symbol with ⟨a, digits, hs, hne, hdigits⟩ | ⟨-, rest, herror⟩
    · obtain ⟨rfl, hshort, hsome, hdegree⟩ := (parse_eq_ok_iff_of_digits hs hne hdigits).1 hn
      exact ⟨digits, hs, hne, hshort, hsome, hdegree⟩
    · rw [hn] at herror
      cases herror
  · rintro ⟨digits, h⟩
    rw [parse_eq_ok_iff_of_digits h.split h.ne_nil h.isDigit]
    exact ⟨rfl, h.short, h.isSome, h.degree⟩

theorem exists_integer_error_iff :
    (∃ cause, parse symbol = .error (.value (.integer cause))) ↔
      IsUnreadable (strip symbol.toList) := by
  constructor
  · rintro ⟨cause, hcause⟩
    rcases eq_digits_or_parse_eq_error symbol with ⟨a, digits, hs, hne, hdigits⟩ | ⟨-, rest, herror⟩
    · have hvalue := (exists_error_iff_of_digits hs hne hdigits).1 ⟨cause, hcause⟩
      exact ⟨a, digits, hs, hne, hdigits, hvalue⟩
    · rw [hcause] at herror
      cases herror
  · rintro ⟨a, digits, hs, hne, hdigits, hvalue⟩
    exact (exists_error_iff_of_digits hs hne hdigits).2 hvalue

theorem parse_cases (symbol : String) :
    (∃ n, parse symbol = .ok n) ∨ (∃ rest, parse symbol = .error (.token (.numeral rest))) ∨
      ∃ cause, parse symbol = .error (.value (.integer cause)) := by
  rcases eq_digits_or_parse_eq_error symbol with ⟨a, digits, hs, hne, hdigits⟩ | ⟨-, hrest⟩
  · rw [parse_of_digits hs hne hdigits]
    split
    · exact .inr (.inr ⟨_, rfl⟩)
    · split
      · exact .inr (.inl ⟨_, rfl⟩)
      · exact .inl ⟨_, rfl⟩
  · exact .inr (.inl hrest)

theorem exists_token_error_iff :
    (∃ rest, parse symbol = .error (.token (.numeral rest))) ↔
      (∀ (n : Numeral) (digits : List Char),
        ¬n.IsSpelled digitValue? (strip symbol.toList) digits) ∧
          ¬IsUnreadable (strip symbol.toList) := by
  simp only [← not_exists, ← parse_eq_ok_iff, ← exists_integer_error_iff]
  rcases parse_cases symbol with ⟨n, h⟩ | ⟨rest, h⟩ | ⟨cause, h⟩ <;> simp [h]

/-! ## Written numerals -/

theorem isSpelled_text (hdegree : n.degree < 10 ^ digitLimit) :
    n.IsSpelled digitValue? n.text.toList (Nat.toDigits 10 n.degree) := by
  have hascii : ∀ c ∈ Nat.toDigits 10 n.degree, Text.isAsciiDigit c = true := fun c hc =>
    Nat.isDigit_of_mem_toDigits (by decide) (by decide) hc
  have hvalue : (Nat.toDigits 10 n.degree).filterMap digitValue? =
      (Nat.toDigits 10 n.degree).map fun c => c.toNat - '0'.toNat := by
    rw [← List.filterMap_eq_map]
    exact List.filterMap_congr fun c hc => Text.digitValue?_of_isAsciiDigit (hascii c hc)
  refine ⟨?_, Nat.toDigits_ne_nil, ?_, ?_, ?_⟩
  · rw [text, String.toList_append]
    exact congrArg _ Nat.toList_repr
  · exact (Nat.length_toDigits_le_iff (by decide) (by decide)).2 hdegree
  · intro c hc
    rw [Text.digitValue?_of_isAsciiDigit (hascii c hc)]
    rfl
  · rw [hvalue, Decimal.ofDigits_map_digits, Decimal.digitsValue_toDigits]

theorem strip_text (hdegree : n.degree < 10 ^ digitLimit) : strip n.text.toList = n.text.toList := by
  have hspelled := isSpelled_text hdegree
  have hmark : ∀ c ∈ n.accidental.symbol.toList, Text.isBlank c = false :=
    List.all_iff_forall_prop.1 (by cases n.accidental <;> decide)
  apply Text.trim_eq_self
  intro c hc
  rw [hspelled.split] at hc
  rcases List.mem_append.1 hc with hc | hc
  · exact hmark c hc
  · exact Text.isBlank_of_isDigit (hspelled.isDigit c hc)

theorem parse_text (hdegree : n.degree < 10 ^ digitLimit) : parse n.text = .ok n := by
  rw [parse_eq_ok_iff, strip_text hdegree]
  exact ⟨_, isSpelled_text hdegree⟩

/-! ## Plain digits -/

theorem asciiDigitValue?_eq {c : Char} (h : isDigit c = true → Text.isAsciiDigit c = true) :
    asciiDigitValue? c = digitValue? c := by
  unfold asciiDigitValue?
  by_cases hascii : Text.isAsciiDigit c = true
  · rw [if_pos hascii, Text.digitValue?_of_isAsciiDigit hascii]
  · rw [if_neg hascii]
    cases hvalue : digitValue? c with
    | none => rfl
    | some d => exact absurd (h (Text.isDigit_of_isSome (by rw [hvalue]; rfl))) hascii

theorem HasPlainDigits.isSpelled_iff (h : HasPlainDigits s) :
    n.IsSpelled asciiDigitValue? s digits ↔ n.IsSpelled digitValue? s digits := by
  have hsame : s = n.accidental.symbol.toList ++ digits →
      ∀ c ∈ digits, asciiDigitValue? c = digitValue? c := by
    rintro rfl c hc
    exact asciiDigitValue?_eq (h.ascii c (List.mem_append_right _ hc))
  constructor
  · rintro ⟨hs, hne, hshort, hsome, hdegree⟩
    rw [List.filterMap_congr (hsame hs)] at hdegree
    exact ⟨hs, hne, hshort, fun c hc => hsame hs c hc ▸ hsome c hc, hdegree⟩
  · rintro ⟨hs, hne, hshort, hsome, hdegree⟩
    rw [← List.filterMap_congr (hsame hs)] at hdegree
    exact ⟨hs, hne, hshort, fun c hc => hsame hs c hc ▸ hsome c hc, hdegree⟩

theorem HasPlainDigits.not_isUnreadable (h : HasPlainDigits s) : ¬IsUnreadable s := by
  rintro ⟨a, digits, rfl, -, hdigits, hlong | ⟨c, hc, hnone⟩⟩
  · exact absurd (h.short a digits rfl hdigits) (Nat.not_le.2 hlong)
  · have hascii := h.ascii c (List.mem_append_right _ hc) (hdigits c hc)
    rw [Text.digitValue?_of_isAsciiDigit hascii] at hnone
    cases hnone

/-- A token is read as the numeral that it spells in decimal digits of any script.  It is refused as
an unreadable number if behind its mark there are only digits, but one without a value or too many,
and as malformed in all other cases.  So with plain digits it is read if it spells a numeral in
them, and else it is malformed; and a written numeral is read as itself, if its degree is not too
long to be read. -/
theorem symbol_result_iff (symbol : String) :
    (∀ n, parse symbol = .ok n ↔
      ∃ digits, n.IsSpelled digitValue? (strip symbol.toList) digits) ∧
    ((∃ cause, parse symbol = .error (.value (.integer cause))) ↔
      IsUnreadable (strip symbol.toList)) ∧
    ((∃ rest, parse symbol = .error (.token (.numeral rest))) ↔
      (∀ (n : Numeral) (digits : List Char),
        ¬n.IsSpelled digitValue? (strip symbol.toList) digits) ∧
          ¬IsUnreadable (strip symbol.toList)) ∧
    (HasPlainDigits (strip symbol.toList) →
      (∀ n, parse symbol = .ok n ↔
        ∃ digits, n.IsSpelled asciiDigitValue? (strip symbol.toList) digits) ∧
      ((∃ rest, parse symbol = .error (.token (.numeral rest))) ↔
        ∀ (n : Numeral) (digits : List Char),
          ¬n.IsSpelled asciiDigitValue? (strip symbol.toList) digits)) ∧
    ∀ n : Numeral, n.degree < 10 ^ digitLimit → parse n.text = .ok n := by
  refine ⟨fun _ => parse_eq_ok_iff, exists_integer_error_iff, exists_token_error_iff, ?_,
    fun _ => parse_text⟩
  intro hplain
  simp only [parse_eq_ok_iff, exists_token_error_iff, hplain.isSpelled_iff, hplain.not_isUnreadable,
    not_false_eq_true, and_true, implies_true]

def raisedTenth : Numeral := ⟨10, .sharp, by decide⟩

theorem symbol_result_iff_raisedTenth :
    HasPlainDigits (strip " #10\n".toList) ∧ parse " #10\n" = .ok raisedTenth ∧
      parse raisedTenth.text = .ok raisedTenth := by
  have hplain : HasPlainDigits (strip " #10\n".toList) := by
    refine ⟨List.all_iff_forall_prop.1 (by decide +kernel), ?_⟩
    intro a digits hs _
    have hthree : (strip " #10\n".toList).length = 3 := by decide +kernel
    rw [hs, List.length_append] at hthree
    have hlimit : digitLimit = 4300 := rfl
    omega
  have hspelled :
      raisedTenth.IsSpelled asciiDigitValue? (strip " #10\n".toList) ['1', '0'] :=
    ⟨by decide +kernel, by decide, by decide, List.all_iff_forall_prop.1 (by decide), by decide⟩
  have hdegree : raisedTenth.degree < 10 ^ digitLimit := calc
    raisedTenth.degree < 10 ^ 2 := by decide
    10 ^ 2 ≤ 10 ^ digitLimit := Nat.pow_le_pow_right (by decide) (by decide)
  obtain ⟨-, -, -, hread, hwritten⟩ := symbol_result_iff " #10\n"
  exact ⟨hplain, ((hread hplain).1 raisedTenth).2 ⟨_, hspelled⟩, hwritten _ hdegree⟩

/-- A superscript passes for a digit until it is read as a number, and a digit of another script is
even read. -/
theorem superscript_is_not_malformed :
    (∀ (n : Numeral) (digits : List Char),
      ¬n.IsSpelled asciiDigitValue? (strip "²".toList) digits) ∧
      parse "²" = .error (.value (.integer (.malformed "²"))) ∧
      (∀ (n : Numeral) (digits : List Char),
        ¬n.IsSpelled asciiDigitValue? (strip "٣".toList) digits) ∧
      parse "٣" = .ok ⟨3, .natural, by decide⟩ := by
  have hnone : ∀ c ∈ strip "²".toList ++ strip "٣".toList, ¬(asciiDigitValue? c).isSome = true :=
    List.all_iff_forall_prop.1 (by decide +kernel)
  refine ⟨?_, by decide +kernel, ?_, by decide +kernel⟩
  · intro n digits h
    obtain ⟨c, hc, hsome⟩ := h.exists_mem
    exact hnone c (List.mem_append_left _ hc) hsome
  · intro n digits h
    obtain ⟨c, hc, hsome⟩ := h.exists_mem
    exact hnone c (List.mem_append_right _ hc) hsome

end Arranger.Numeral
