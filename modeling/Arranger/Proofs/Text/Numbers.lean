import Arranger.Proofs.Text.Trimmed
import Arranger.Text.Integer

/-!
# Numbers of nothing but digits

Blanks, signs and underscores are no digits.  So a text of digits is read as it stands: as the
number that its decimal digits have, if it has no other ones and if they are not too many.
-/

namespace Arranger.Text

variable {c : Char} {digits : List Char}

/-! ## What is no digit -/

def blankCodes : List Nat :=
  [0x09, 0x0A, 0x0B, 0x0C, 0x0D, 0x1C, 0x1D, 0x1E, 0x1F, 0x20, 0x85, 0xA0, 0x1680, 0x2000, 0x2001,
    0x2002, 0x2003, 0x2004, 0x2005, 0x2006, 0x2007, 0x2008, 0x2009, 0x200A, 0x2028, 0x2029, 0x202F,
    0x205F, 0x3000]

theorem toNat_mem_blankCodes (h : isBlank c = true) : c.toNat ∈ blankCodes := by
  simp only [isBlank, Bool.or_eq_true, Bool.and_eq_true, decide_eq_true_eq, beq_iff_eq] at h
  simp only [blankCodes, List.mem_cons, List.not_mem_nil, or_false]
  omega

theorem isBlank_of_isDigit (h : isDigit c = true) : isBlank c = false := by
  have hcodes : ∀ code ∈ blankCodes, isDigit (Char.ofNat code) = false := by decide +kernel
  by_contra hblank
  have hcontra := hcodes c.toNat (toNat_mem_blankCodes (by simpa using hblank))
  rw [Char.ofNat_toNat, h] at hcontra
  cases hcontra

theorem ne_of_isDigit {mark : Char} (h : isDigit c = true) (hmark : isDigit mark = false) :
    c ≠ mark := by
  rintro rfl
  rw [h] at hmark
  cases hmark

theorem isDigit_of_isSome (h : (digitValue? c).isSome = true) : isDigit c = true := by
  rw [isDigit, h, Bool.true_or]

theorem digitValue?_of_isAsciiDigit (h : isAsciiDigit c = true) :
    digitValue? c = some (c.toNat - '0'.toNat) := by
  have hbounds : 48 ≤ c.toNat ∧ c.toNat ≤ 57 := by
    simp only [isAsciiDigit, Bool.and_eq_true, decide_eq_true_eq, Char.le_def,
      UInt32.le_iff_toNat_le] at h
    exact h
  have hfirst : (decide (0x30 ≤ c.toNat) && decide (c.toNat < 0x30 + 10)) = true := by
    simp only [Bool.and_eq_true, decide_eq_true_eq]
    omega
  have hzeros : zeroDigits = 0x30 :: zeroDigits.tail := rfl
  have hfound : zeroDigits.find? (fun origin => origin ≤ c.toNat && c.toNat < origin + 10) =
      some 0x30 := by
    rw [hzeros]
    exact List.find?_cons_of_pos hfirst
  rw [digitValue?, hfound]
  rfl

/-! ## Reading digits -/

theorem digitRun_of_digits {value? : Char → Option Nat} (hne : digits ≠ [])
    (h : ∀ c ∈ digits, (value? c).isSome = true ∧ c ≠ '_') :
    digitRun value? digits = some (digits.filterMap value?) := by
  induction digits with
  | nil => exact absurd rfl hne
  | cons c rest ih =>
      obtain ⟨⟨hvalue, -⟩, hrest⟩ := List.forall_mem_cons.1 h
      obtain ⟨d, hd⟩ := Option.isSome_iff_exists.1 hvalue
      rw [List.filterMap_cons_some hd]
      cases rest with
      | nil => simp [digitRun, hd]
      | cons next more =>
          have hnext : next ≠ '_' := (hrest next List.mem_cons_self).2
          rw [digitRun, hd, ih (List.cons_ne_nil _ _) hrest]
          · rfl
          · exact List.cons_ne_nil _ _
          · intro _ heq
            exact hnext (List.cons.inj heq).1

theorem readInteger_of_digits (h : ∀ c ∈ digits, isDigit c = true) :
    readInteger (String.ofList digits) =
      match digitRun digitValue? (digits.takeWhile isNumberChar) with
      | none => .error (.malformed (String.ofList digits))
      | some values =>
          if values.length > digitLimit then .error (.tooManyDigits values.length)
          else if digits.all isNumberChar then .ok (ofDigits 10 values : Nat)
          else .error (.malformed (String.ofList digits)) := by
  have hspace : ∀ c ∈ digits, isWhiteSpace c = false := by
    intro c hc
    rw [isWhiteSpace, isBlank_of_isDigit (h c hc), Bool.false_and]
  have hsign : splitSign digits = (false, digits) := by
    unfold splitSign
    split
    · exact absurd rfl (ne_of_isDigit (h '-' List.mem_cons_self) (by decide))
    · exact absurd rfl (ne_of_isDigit (h '+' List.mem_cons_self) (by decide))
    · rfl
  unfold readInteger
  rw [String.toList_ofList, trim_eq_self hspace, hsign]
  rfl

/-- Of texts of digits, those of not too many decimal ones are read. -/
theorem readInteger_eq_ok_iff (hne : digits ≠ []) (h : ∀ c ∈ digits, isDigit c = true) {i : Int} :
    readInteger (String.ofList digits) = .ok i ↔
      digits.length ≤ digitLimit ∧ (∀ c ∈ digits, (digitValue? c).isSome = true) ∧
        i = (ofDigits 10 (digits.filterMap digitValue?) : Nat) := by
  have hunderscore : ∀ c ∈ digits, c ≠ '_' := fun c hc => ne_of_isDigit (h c hc) (by decide)
  have hnumber : ∀ c ∈ digits, isNumberChar c = (digitValue? c).isSome := by
    intro c hc
    simp [isNumberChar, hunderscore c hc]
  rw [readInteger_of_digits h]
  by_cases hdecimal : ∀ c ∈ digits, (digitValue? c).isSome = true
  · have hall : ∀ c ∈ digits, isNumberChar c = true := fun c hc =>
      (hnumber c hc).trans (hdecimal c hc)
    have hrun := digitRun_of_digits hne fun c hc => ⟨hdecimal c hc, hunderscore c hc⟩
    have hlength : (digits.filterMap digitValue?).length = digits.length :=
      List.filterMap_length_eq_length.2 hdecimal
    rw [List.takeWhile_eq_self_iff.2 hall, hrun, List.all_eq_true.2 hall]
    simp only [hlength, if_true]
    split
    · next hlong =>
      simp only [reduceCtorEq, false_iff]
      exact fun hread => absurd hread.1 (Nat.not_le.2 hlong)
    · next hshort =>
      rw [Except.ok.injEq]
      constructor
      · rintro rfl
        exact ⟨Nat.not_lt.1 hshort, hdecimal, rfl⟩
      · rintro ⟨-, -, rfl⟩
        rfl
  · have hall : ¬digits.all isNumberChar = true := by
      rw [List.all_eq_true]
      exact fun hall => hdecimal fun c hc => (hnumber c hc).symm.trans (hall c hc)
    simp only [hall, hdecimal, false_and, and_false, iff_false]
    split
    · exact nofun
    · split <;> exact nofun

end Arranger.Text
