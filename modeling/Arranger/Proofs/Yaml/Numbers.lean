import Arranger.Proofs.Decimal.Reading
import Arranger.Proofs.Decimal.Written
import Arranger.Proofs.Text.Trimmed
import Arranger.Proofs.Yaml.Composing
import Arranger.Proofs.Yaml.Scalars
import Arranger.Theory.Note
import Arranger.Yaml.Write

/-!
# Numbers in documents

A number in a document is written as a word whose form tells that it is a number, and the word is
read as the number.
-/

namespace Arranger.Yaml

open Arranger.Decimal
open Arranger.Text (asciiLower digitValue? isAsciiDigit isWhiteSpace lowered splitSign trim trim_eq_self)

/-! ## The characters of numbers -/

def numeralChars : List Char := "0123456789.e+-".toList

theorem mem_numeralChars {c : Char} (h : IsNumeralChar c) : c ∈ numeralChars := by
  rcases h with hdigit | rfl | rfl | rfl | rfl
  · have hrange : 48 ≤ c.toNat ∧ c.toNat ≤ 57 := by
      simp only [Char.isDigit, Bool.and_eq_true, decide_eq_true_eq] at hdigit
      exact ⟨hdigit.1, hdigit.2⟩
    have hall : ∀ d < 10, Char.ofNat (48 + d) ∈ numeralChars := by decide
    have hmem := hall (c.toNat - 48) (by omega)
    have hsame : 48 + (c.toNat - 48) = c.toNat := by omega
    rwa [hsame, Char.ofNat_toNat] at hmem
  all_goals decide

/-- What holds of every character that occurs in numbers. -/
theorem numeralChar_all
    {p : Char → Bool} (hall : numeralChars.all p = true) {s : List Char}
    (hs : ∀ c ∈ s, IsNumeralChar c) :
    ∀ c ∈ s, p c = true :=
  fun c hc => List.all_eq_true.1 hall c (mem_numeralChars (hs c hc))

theorem map_eq_self {f : Char → Char} {s : List Char} (h : ∀ c ∈ s, f c = c) : s.map f = s := by
  induction s with
  | nil => rfl
  | cons c s ih =>
      rw [List.map_cons, h c List.mem_cons_self, ih fun d hd => h d (List.mem_cons_of_mem c hd)]

section Spelling

variable {s : List Char}

theorem trim_numeral (hs : ∀ c ∈ s, IsNumeralChar c) : trim isWhiteSpace s = s := by
  have hnone : ∀ c ∈ s, isWhiteSpace c = false := by
    intro c hc
    have hall := numeralChar_all (p := fun c => !isWhiteSpace c) (by decide +kernel) hs c hc
    simpa using hall
  exact trim_eq_self hnone

theorem asciiDigits_numeral (hs : ∀ c ∈ s, IsNumeralChar c) : asciiDigits s = s := by
  apply map_eq_self
  intro c hc
  have hall := numeralChar_all (p := fun c => asciiDigits [c] = [c]) (by decide +kernel) hs c hc
  exact (List.cons.inj (of_decide_eq_true hall)).1

theorem lowered_numeral (hs : ∀ c ∈ s, IsNumeralChar c) : lowered s = s := by
  apply map_eq_self
  intro c hc
  have hall := numeralChar_all (p := fun c => asciiLower c = c) (by decide +kernel) hs c hc
  exact of_decide_eq_true hall

theorem ne_of_numeral (hs : ∀ c ∈ s, IsNumeralChar c) {d : Char} (hd : d ∉ numeralChars) : d ∉ s :=
  fun hmem => hd (mem_numeralChars (hs d hmem))

theorem withoutUnderscores_numeral (hs : ∀ c ∈ s, IsNumeralChar c) : withoutUnderscores s = s := by
  rw [withoutUnderscores, List.filter_eq_self]
  intro c hc
  exact numeralChar_all (p := fun c => c != '_') (by decide) hs c hc

theorem joinDigitGroups_numeral (hs : ∀ c ∈ s, IsNumeralChar c) : joinDigitGroups s = some s := by
  have hnone : '_' ∉ s := ne_of_numeral hs (by decide)
  clear hs
  induction s with
  | nil => rfl
  | cons c s ih =>
      rw [List.mem_cons, not_or] at hnone
      have hrest := ih hnone.2
      unfold joinDigitGroups
      split
      · next heq => cases heq
      · next heq =>
        rw [List.cons.injEq] at heq
        exact absurd (by rw [heq.2]; simp) hnone.2
      · next c' s' _ heq =>
        rw [List.cons.injEq] at heq
        rw [← heq.1, ← heq.2, if_neg (Ne.symm hnone.1), hrest]
        rfl

theorem contains_numeral (hs : ∀ c ∈ s, IsNumeralChar c) {d : Char} (hd : d ∉ numeralChars) :
    s.contains d = false := by
  rw [← Bool.not_eq_true, List.contains_iff_mem]
  exact ne_of_numeral hs hd

end Spelling

/-! ## Floating numbers -/

theorem splitSign_of_digit {d : Char} {rest : List Char} (hd : isAsciiDigit d = true) :
    splitSign (d :: rest) = (false, d :: rest) := by
  unfold splitSign
  split
  · next heq =>
    rw [List.cons.injEq] at heq
    rw [heq.1] at hd
    exact absurd hd (by decide)
  · next heq =>
    rw [List.cons.injEq] at heq
    rw [heq.1] at hd
    exact absurd hd (by decide)
  · rfl

theorem dropSign_of_digit {d : Char} {rest : List Char} (hd : isAsciiDigit d = true) :
    dropSign (d :: rest) = d :: rest := by
  unfold dropSign
  split
  · next heq =>
    rw [List.cons.injEq] at heq
    rw [heq.1] at hd
    exact absurd hd (by decide)
  · next heq =>
    rw [List.cons.injEq] at heq
    rw [heq.1] at hd
    exact absurd hd (by decide)
  · rfl

theorem cons_ne_of_digit {d c : Char} {rest more : List Char} (hd : isAsciiDigit d = true)
    (hc : isAsciiDigit c = false) : d :: rest ≠ c :: more := by
  intro heq
  rw [List.cons.injEq] at heq
  rw [heq.1, hc] at hd
  exact Bool.false_ne_true hd

section Spelling

variable {n : Spelling}

theorem readReal_text (h : n.IsWritten) {x : Float} (hread : readUnsigned false n.text = some x) :
    readRealSize n.text = .ok x := by
  have hchars := h.isNumeralChar
  obtain ⟨d, rest, hcons, hd⟩ := h.exists_head
  have hcolon : n.text.contains ':' = false := contains_numeral hchars (by decide)
  have hascii : readAscii n.text = some x := by
    unfold readAscii
    rw [hcons, splitSign_of_digit hd]
    dsimp only
    rw [← hcons, lowered_numeral hchars, hcons]
    have hinf : d :: rest ≠ "inf".toList := cons_ne_of_digit hd (by decide)
    have hinfinity : d :: rest ≠ "infinity".toList := cons_ne_of_digit hd (by decide)
    have hnan : d :: rest ≠ "nan".toList := cons_ne_of_digit hd (by decide)
    simp only [decide_eq_false hinf, decide_eq_false hinfinity, Bool.or_self, Bool.false_eq_true,
      if_false, if_neg hnan]
    rw [← hcons]
    exact hread
  rw [readRealSize, hcolon, if_neg Bool.false_ne_true, readReal, readNumber?, trim_numeral hchars,
    asciiDigits_numeral hchars, joinDigitGroups_numeral hchars]
  simp only [Option.bind_some, hascii]

/-- A signed numeral is read as the number that its digits are read as, with the sign. -/
theorem readFloat_signed
    (h : n.IsWritten) {x : Float} (hread : readUnsigned false n.text = some x) (negative : Bool)
    {text : String} (htext : text.toList = if negative then '-' :: n.text else n.text) :
    readFloat text = .ok (.float (if negative then -x else x)) := by
  have hchars := h.isNumeralChar
  obtain ⟨d, rest, hcons, hd⟩ := h.exists_head
  have hall : ∀ c ∈ text.toList, IsNumeralChar c := by
    rw [htext]
    cases negative with
    | false => exact hchars
    | true =>
        intro c hc
        rcases List.mem_cons.1 hc with rfl | hmem
        · exact .inr (.inr (.inr (.inr rfl)))
        · exact hchars c hmem
  have hsplit : signAndSize text.toList = .ok (negative, n.text) := by
    rw [htext]
    cases negative with
    | false =>
        rw [hcons]
        exact congrArg Except.ok (splitSign_of_digit hd)
    | true => rfl
  have hinf : n.text ≠ ".inf".toList := by
    rw [hcons]
    exact cons_ne_of_digit hd (by decide)
  have hnan : n.text ≠ ".nan".toList := by
    rw [hcons]
    exact cons_ne_of_digit hd (by decide)
  change readFloatText text.toList = _
  unfold readFloatText
  rw [withoutUnderscores_numeral hall, lowered_numeral hall, hsplit]
  simp only [bind, Except.bind, if_neg hinf, if_neg hnan, readReal_text h hread]
  rfl

end Spelling

theorem documentNumber_point : documentNumber.pointBeforeExponent = true := rfl

theorem readFloat_write (x : Float) : readFloat (documentNumber.write x) = .ok (.float x) := by
  cases hx : decode x with
  | finite negative mantissa exponent =>
      obtain ⟨n, hwritten, htext, hread⟩ := write_finite documentNumber_point hx
      rw [readFloat_signed hwritten hread negative htext]
      rw [signed_ofBits (toNat_of_decode_finite hx).1]
  | infinite negative =>
      have hbits := toNat_of_decode_infinite hx
      have hinfinite : infinite negative = x := by
        rw [← ofBits_of_toNat hbits]
        cases negative with
        | false => rfl
        | true => rfl
      rw [Layout.write, hx, ← hinfinite]
      cases negative with
      | false => rfl
      | true => rfl
  | nan =>
      rw [Layout.write, hx, eq_notANumber_of_decode hx]
      rfl

/-! ## Forms of numbers -/

theorem withoutLastBreak_of_not_mem {text : String} (h : '\n' ∉ text.toList) :
    withoutLastBreak text = text.toList := by
  have hlast : text.toList.getLast? ≠ some '\n' :=
    fun heq => h (List.mem_of_getLast? heq)
  unfold withoutLastBreak
  dsimp only
  rw [if_neg]
  simp [hlast]

theorem isTruthWord_of_point {text : String} (h : '.' ∈ text.toList) : isTruthWord text = false := by
  rw [← Bool.not_eq_true, isTruthWord, List.contains_iff_mem]
  intro hmem
  have hall : ∀ word ∈ ["yes", "Yes", "YES", "no", "No", "NO", "true", "True", "TRUE", "false",
      "False", "FALSE", "on", "On", "ON", "off", "Off", "OFF"], '.' ∉ word.toList := by
    decide
  exact hall text hmem h

theorem isExponent_exponentText {n : Spelling} (h : n.IsWritten) :
    isExponent n.exponentText = true := by
  unfold Spelling.exponentText
  cases hexponent : n.exponent with
  | none => rfl
  | some written =>
      obtain ⟨negative, digits⟩ := written
      obtain ⟨hne, hall⟩ := h.exponent_digits negative digits hexponent
      have hempty : digits.isEmpty = false := List.isEmpty_eq_false_iff.2 hne
      have hdigits : digits.all isAsciiDigit = true := List.all_eq_true.2 hall
      cases negative with
      | false => simp [isExponent, hempty, hdigits]
      | true => simp [isExponent, hempty, hdigits]

/-- Digits, a point and a fraction. -/
theorem isFloatForm_text {n : Spelling} (h : n.IsWritten) {s : List Char}
    (hs : dropSign s = n.text) :
    isFloatForm s = true := by
  have hwords : ∀ c ∈ n.whole, (c != '.') = true := by
    intro c hc
    have hall := numeralChar_all (p := fun c => c != '.' || !isAsciiDigit c) (by decide)
      h.isNumeralChar c (by simp [Spelling.text, hc])
    simpa [h.whole_digits c hc] using hall
  have hgaps : ∀ c ∈ n.fraction, isDigitOrGap c = true := by
    intro c hc
    rw [isDigitOrGap, h.fraction_digits c hc]
    rfl
  have hexponent : ∀ c ∈ n.exponentText.head?, isDigitOrGap c = false := by
    intro c hc
    unfold Spelling.exponentText at hc
    split at hc
    · simp at hc
    · have hmark : 'e' = c := by simpa using hc
      rw [← hmark]
      decide
  have hstop : ∀ c ∈ ('.' :: (n.fraction ++ n.exponentText)).head?, (c != '.') = false := by simp
  obtain ⟨hwhole, hafter⟩ := takeWhile_append_of_stop hwords hstop
  obtain ⟨-, htail⟩ := takeWhile_append_of_stop hgaps hexponent
  have hrun : isDigitRun n.whole = true := by
    obtain ⟨d, rest, hcons⟩ := List.exists_cons_of_ne_nil h.whole_ne
    rw [hcons, isDigitRun, Bool.and_eq_true, List.all_eq_true]
    refine ⟨h.whole_digits d (by simp [hcons]), ?_⟩
    intro c hc
    rw [isDigitOrGap, h.whole_digits c (by simp [hcons, hc])]
    rfl
  have hfraction : isFraction (n.fraction ++ n.exponentText) = true := by
    rw [isFraction, htail]
    exact isExponent_exponentText h
  unfold isFloatForm
  rw [hs, Spelling.text]
  simp only [hwhole, hafter, hrun, hfraction, Bool.and_self, Bool.true_or, Bool.or_true]

/-- A written number has the form of a floating number. -/
theorem implicitTag_write (x : Float) : implicitTag (documentNumber.write x) = .float := by
  cases hx : decode x with
  | finite negative mantissa exponent =>
      obtain ⟨n, hwritten, htext, -⟩ := write_finite documentNumber_point hx
      obtain ⟨d, rest, hcons, hd⟩ := hwritten.exists_head
      have hdrop : dropSign (documentNumber.write x).toList = n.text := by
        rw [htext]
        cases negative with
        | false =>
            rw [hcons]
            exact dropSign_of_digit hd
        | true => rfl
      have hpoint : '.' ∈ (documentNumber.write x).toList := by
        rw [htext]
        cases negative with
        | false => simp [Spelling.text]
        | true => simp [Spelling.text]
      have hbreak : '\n' ∉ (documentNumber.write x).toList := by
        have hnone : '\n' ∉ n.text := ne_of_numeral hwritten.isNumeralChar (by decide)
        rw [htext]
        cases negative with
        | false => exact hnone
        | true => simp [hnone]
      unfold implicitTag
      rw [withoutLastBreak_of_not_mem hbreak]
      dsimp only
      rw [String.ofList_toList, isTruthWord_of_point hpoint, isFloatForm_text hwritten hdrop]
      rfl
  | infinite negative =>
      rw [Layout.write, hx]
      cases negative with
      | false => decide +kernel
      | true => decide +kernel
  | nan =>
      rw [Layout.write, hx]
      decide +kernel

/-! ## Words that denote values -/

/-- A word that a plain scalar may hold and that denotes a value. -/
structure IsWordFor (text : String) (d : Datum) : Prop where
  isPlainWord : IsPlainWord text.toList
  beginsPlainly : BeginsPlainly text.toList
  denotes : ∀ place, (Node.scalar (implicitTag text) ⟨.text text, true⟩ place).Denotes d

theorem isPlainWord_of_all
    {w : List Char} (hne : w ≠ []) (hall : w.all (fun c => isPlainAscii c && c != ' ') = true)
    (hcolon : w.getLast? ≠ some ':') (hhash : w.head? ≠ some '#') :
    IsPlainWord w where
  ne_nil := hne
  ascii := fun c hc => (Bool.and_eq_true_iff.1 (List.all_eq_true.1 hall c hc)).1
  noSpace := by
    intro c hc
    have hspace := (Bool.and_eq_true_iff.1 (List.all_eq_true.1 hall c hc)).2
    simpa using hspace
  noColon := hcolon
  noHash := hhash

theorem isPlainWord_of_numeral
    {s : List Char} (hne : s ≠ []) (hs : ∀ c ∈ s, IsNumeralChar c) :
    IsPlainWord s where
  ne_nil := hne
  ascii := numeralChar_all (p := isPlainAscii) (by decide) hs
  noSpace := by
    rintro c hc rfl
    exact ne_of_numeral hs (by decide) hc
  noColon := fun hlast => ne_of_numeral hs (by decide) (List.mem_of_getLast? hlast)
  noHash := fun hhead => ne_of_numeral hs (by decide) (List.mem_of_head? hhead)

theorem beginsPlainly_of_digit {d : Char} {rest : List Char} (hd : isAsciiDigit d = true) :
    BeginsPlainly (d :: rest) := by
  have hmem : ∀ c ∈ [d], IsNumeralChar c := by
    intro c hc
    rw [List.mem_singleton.1 hc]
    exact isNumeralChar_of_isAsciiDigit hd
  constructor
  · have hall := numeralChar_all (p := fun c => !"#,[]\x7b\x7d&*!|>'\"%@`".toList.contains c)
      (by decide) hmem d (List.mem_singleton_self d)
    rwa [Bool.not_eq_true'] at hall
  · rintro (rfl | rfl | rfl)
    all_goals exact absurd hd (by decide)

theorem isWordFor_float (x : Float) : IsWordFor (documentNumber.write x) (.float x) where
  isPlainWord := by
    rcases documentNumber.write_cases x with hword | ⟨hne, hchars⟩
    · simp only [List.mem_cons, List.not_mem_nil, or_false] at hword
      rcases hword with hword | hword | hword
      all_goals
        rw [hword]
        exact isPlainWord_of_all (by decide) (by decide) (by decide) (by decide)
    · exact isPlainWord_of_numeral (by simpa using hne) hchars
  beginsPlainly := by
    cases hx : decode x with
    | finite negative mantissa exponent =>
        obtain ⟨n, hwritten, htext, -⟩ := write_finite documentNumber_point hx
        obtain ⟨d, rest, hcons, hd⟩ := hwritten.exists_head
        rw [htext, hcons]
        cases negative with
        | false => exact beginsPlainly_of_digit hd
        | true =>
            refine ⟨by decide, fun _ => ⟨d, rfl, ?_⟩⟩
            have hchars := numeralChar_all (p := fun c => !isGap c) (by decide)
              hwritten.isNumeralChar d (by simp [hcons])
            rwa [Bool.not_eq_true'] at hchars
    | infinite negative =>
        rw [Layout.write, hx]
        cases negative with
        | false => exact ⟨by decide, by decide⟩
        | true => exact ⟨by decide, fun _ => ⟨'.', rfl, by decide⟩⟩
    | nan =>
        rw [Layout.write, hx]
        exact ⟨by decide, by decide⟩
  denotes := by
    intro place
    rw [implicitTag_write]
    exact denotes_scalar place rfl (readFloat_write x) rfl

/-! ## Pitches -/

/-- Whether an integer has the form of one and is read back. -/
def readsBackInteger (i : Int) : Bool :=
  implicitTag (toString i) = .int && match readInt (toString i) with
    | .ok (.int j) => j = i
    | _ => false

theorem readsBackInteger_pitch : ∀ p : Pitch, readsBackInteger p.val = true := by
  decide +kernel

theorem isWordFor_pitch (p : Pitch) : IsWordFor (toString (p.val : Int)) (.int p.val) where
  isPlainWord := by
    have hcast : toString (p.val : Int) = p.val.repr := rfl
    rw [hcast, Nat.toList_repr]
    exact isPlainWord_of_numeral Nat.toDigits_ne_nil fun c hc => isNumeralChar_of_mem_toDigits hc
  beginsPlainly := by
    have hcast : toString (p.val : Int) = p.val.repr := rfl
    rw [hcast, Nat.toList_repr]
    obtain ⟨d, rest, hcons⟩ := List.exists_cons_of_ne_nil (@Nat.toDigits_ne_nil p.val 10)
    rw [hcons]
    apply beginsPlainly_of_digit
    have hmem : d ∈ Nat.toDigits 10 p.val := by
      rw [hcons]
      exact List.mem_cons_self
    exact Nat.isDigit_of_mem_toDigits (by decide) (by decide) hmem
  denotes := by
    intro place
    have hback := readsBackInteger_pitch p
    rw [readsBackInteger, Bool.and_eq_true, decide_eq_true_eq] at hback
    obtain ⟨htag, hread⟩ := hback
    rw [htag]
    refine denotes_scalar place rfl ?_ rfl
    split at hread
    · next j hj =>
      rw [hj, of_decide_eq_true hread]
    · exact absurd hread Bool.false_ne_true

theorem isWordFor_null : IsWordFor "null" .null where
  isPlainWord := isPlainWord_of_all (by decide) (by decide) (by decide) (by decide)
  beginsPlainly := ⟨by decide, by decide⟩
  denotes := by
    intro place
    have htag : implicitTag "null" = .null := by decide +kernel
    rw [htag]
    exact denotes_scalar place rfl rfl rfl

end Arranger.Yaml
