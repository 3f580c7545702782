import Arranger.Proofs.Theory.Notes
import Arranger.Theory.Numeral

/-!
# Note tokens

A note token is a natural letter, perhaps the mark of an accidental, and the digit of an octave.  It
stands for the note at its height, if there is one.  What is no note token is refused as malformed,
but for one case: before a mark in the middle is looked at, the note without it must be in range.
-/

namespace Arranger

inductive Letter where
  | c
  | d
  | e
  | f
  | g
  | a
  | b
  deriving DecidableEq

namespace Letter

def char : Letter → Char
  | c => 'C'
  | d => 'D'
  | e => 'E'
  | f => 'F'
  | g => 'G'
  | a => 'A'
  | b => 'B'

/-- The half steps from C up to the natural tone. -/
def steps : Letter → PitchClass
  | c => 0
  | d => 2
  | e => 4
  | f => 5
  | g => 7
  | a => 9
  | b => 11

end Letter

/-- What marks an accidental in a note token. -/
def Accidental.mark : Accidental → List Char
  | flat => ['b']
  | natural => []
  | sharp => ['s']

structure NoteToken where
  letter : Letter
  accidental : Accidental
  octave : Fin 10
  deriving DecidableEq

namespace NoteToken

def digit (w : NoteToken) : Char := Nat.digitChar w.octave

def chars (w : NoteToken) : List Char := w.letter.char :: (w.accidental.mark ++ [w.digit])

def text (w : NoteToken) : String := String.ofList w.chars

/-- The height of the note without its accidental. -/
def naturalHeight (w : NoteToken) : Int := midiNumber w.letter.steps w.octave.val

def height (w : NoteToken) : Int := w.naturalHeight + w.accidental.halfSteps

theorem toList_text (w : NoteToken) : w.text.toList = w.chars := String.toList_ofList

theorem length_chars (w : NoteToken) : 2 ≤ w.chars.length ∧ w.chars.length ≤ 3 := by
  obtain ⟨letter, accidental, octave⟩ := w
  cases accidental <;> exact ⟨by simp [chars], by simp [chars, Accidental.mark]⟩

theorem eq_text_iff {token : String} {w : NoteToken} : token = w.text ↔ token.toList = w.chars := by
  rw [← toList_text, String.toList_inj]

theorem naturalHeight_nonneg (w : NoteToken) : 0 ≤ w.naturalHeight := by
  unfold naturalHeight midiNumber
  omega

/-- No natural note is just above the range, from where a flat would lead back to it. -/
theorem naturalHeight_lt {w : NoteToken} (h : w.height < 128) : w.naturalHeight < 128 := by
  obtain ⟨letter, accidental, octave⟩ := w
  have hoctave := octave.isLt
  unfold height naturalHeight midiNumber at h
  unfold naturalHeight midiNumber
  cases letter <;> cases accidental <;>
    simp only [Letter.steps, Accidental.halfSteps] at h ⊢ <;> omega

end NoteToken

/-- A natural note above the range that has something other than an accidental in its middle. -/
def IsBeyondRange (token : String) : Prop :=
  ∃ (letter : Letter) (mark : Char) (octave : Fin 10),
    token.toList = [letter.char, mark, Nat.digitChar octave] ∧ mark ≠ 's' ∧ mark ≠ 'b' ∧
      127 < midiNumber letter.steps octave.val

namespace Note

variable {token : String} {n : Note} {letter octave : Char}

/-! ## Letters and digits -/

theorem ofLetter?_char (l : Letter) : ofLetter? l.char = some l.steps := by
  cases l <;> decide

theorem ofLetter?_eq_none (h : ∀ l : Letter, letter ≠ l.char) : ofLetter? letter = none := by
  unfold ofLetter?
  rw [if_neg]
  intro hmem
  have hletters : letter ∈ ['C', 'D', 'E', 'F', 'G', 'A', 'B'] := by simpa using hmem
  simp only [List.mem_cons, List.not_mem_nil, or_false] at hletters
  rcases hletters with hl | hl | hl | hl | hl | hl | hl
  · exact h .c hl
  · exact h .d hl
  · exact h .e hl
  · exact h .f hl
  · exact h .g hl
  · exact h .a hl
  · exact h .b hl

theorem toNat_digitChar (d : Fin 10) : (Nat.digitChar d).toNat = 48 + d.val :=
  Nat.toNat_digitChar_of_lt_ten d.isLt

theorem isAsciiDigit_iff :
    Text.isAsciiDigit octave = true ↔ ∃ d : Fin 10, octave = Nat.digitChar d := by
  have hzero : '0'.toNat = 48 := rfl
  have hnine : '9'.toNat = 57 := rfl
  have hbounds : Text.isAsciiDigit octave = true ↔ 48 ≤ octave.toNat ∧ octave.toNat ≤ 57 := by
    simp only [Text.isAsciiDigit, Bool.and_eq_true, decide_eq_true_eq, Char.le_def,
      UInt32.le_iff_toNat_le]
    exact Iff.rfl
  rw [hbounds]
  constructor
  · rintro ⟨hlow, hhigh⟩
    refine ⟨⟨octave.toNat - 48, by omega⟩, Char.toNat_inj.1 ?_⟩
    rw [toNat_digitChar]
    simp only
    omega
  · rintro ⟨d, rfl⟩
    have hlt := d.isLt
    rw [toNat_digitChar]
    omega

theorem natural_char (token : String) (l : Letter) (d : Fin 10) :
    natural token l.char (Nat.digitChar d) = new l.steps d.val := by
  have hzero : '0'.toNat = 48 := rfl
  have hvalue : (Nat.digitChar d).toNat - '0'.toNat = d.val := by
    rw [toNat_digitChar, hzero]
    exact Nat.add_sub_cancel_left 48 d.val
  simp only [natural, ofLetter?_char, isAsciiDigit_iff.2 ⟨d, rfl⟩, if_true, hvalue]

theorem exists_natural_error
    (h : ¬∃ (l : Letter) (d : Fin 10), letter = l.char ∧ octave = Nat.digitChar d) (token : String) :
    ∃ cause, natural token letter octave = .error (.token cause) := by
  unfold natural
  by_cases hletter : ∃ l : Letter, letter = l.char
  · obtain ⟨l, rfl⟩ := hletter
    have hdigit : ¬Text.isAsciiDigit octave = true := by
      rw [isAsciiDigit_iff]
      rintro ⟨d, hd⟩
      exact h ⟨l, d, rfl, hd⟩
    refine ⟨.noteOctave token, ?_⟩
    simp only [ofLetter?_char]
    rw [if_neg hdigit]
  · refine ⟨.noteLetter token letter, ?_⟩
    rw [ofLetter?_eq_none fun l hl => hletter ⟨l, hl⟩]

/-! ## Well-formed tokens -/

theorem transpose_zero (n : Note) : n.transpose 0 = .ok n :=
  transpose_eq_ok_iff.2 (Int.add_zero _).symm

theorem parse_text (w : NoteToken) :
    parse w.text = (do
      let base ← new w.letter.steps w.octave.val
      base.transpose w.accidental.halfSteps) := by
  obtain ⟨letter, accidental, octave⟩ := w
  unfold parse
  rw [NoteToken.toList_text]
  cases accidental with
  | flat =>
      have hmark : 'b' ≠ 's' := by decide
      simp only [NoteToken.chars, NoteToken.digit, Accidental.mark, List.singleton_append,
        natural_char, if_neg hmark, if_true, Accidental.halfSteps, flat]
  | natural =>
      simp only [NoteToken.chars, NoteToken.digit, Accidental.mark, List.nil_append, natural_char,
        Accidental.halfSteps, transpose_zero]
      cases new letter.steps octave.val <;> rfl
  | sharp =>
      simp only [NoteToken.chars, NoteToken.digit, Accidental.mark, List.singleton_append,
        natural_char, if_true, Accidental.halfSteps, sharp]

theorem parse_text_eq_ok_iff {w : NoteToken} : parse w.text = .ok n ↔ n.height = w.height := by
  simp only [parse_text, bind_eq_ok_iff, new_eq_ok_iff_height, transpose_eq_ok_iff]
  constructor
  · rintro ⟨base, hbase, hn⟩
    rw [hn, hbase]
    rfl
  · intro hn
    obtain ⟨base, hbase⟩ := exists_height_eq w.naturalHeight_nonneg
      (w.naturalHeight_lt (hn ▸ n.height_lt))
    exact ⟨base, hbase, by rw [hn, hbase]; rfl⟩

theorem failsInRange_parse_text (w : NoteToken) : FailsInRange (parse w.text) := by
  rw [parse_text]
  exact (failsInRange_new _ _).bind fun base => failsInRange_transpose base _

theorem exists_parse_text_iff {w : NoteToken} :
    (∃ n, parse w.text = .ok n) ↔ 0 ≤ w.height ∧ w.height < 128 := by
  simp only [parse_text_eq_ok_iff]
  exact exists_height_eq_iff

/-! ## Malformed tokens -/

theorem exists_error_of_isBeyondRange (h : IsBeyondRange token) :
    ∃ cause, parse token = .error (.range cause) := by
  obtain ⟨l, mark, d, hchars, -, -, hhigh⟩ := h
  obtain ⟨cause, hcause⟩ : ∃ cause, new l.steps d.val = .error (.range cause) := by
    rw [(failsInRange_new _ _).exists_error_iff]
    rintro ⟨base, hbase⟩
    have hheight := new_eq_ok_iff_height.1 hbase
    have hlt := base.height_lt
    omega
  refine ⟨cause, ?_⟩
  unfold parse
  simp only [hchars, natural_char, hcause]
  rfl

theorem exists_error_of_malformed (h : ∀ w : NoteToken, token ≠ w.text)
    (hrange : ¬IsBeyondRange token) : ∃ cause, parse token = .error (.token cause) := by
  simp only [ne_eq, NoteToken.eq_text_iff] at h
  unfold IsBeyondRange at hrange
  unfold parse
  rcases htoken : token.toList with _ | ⟨letter, _ | ⟨mark, _ | ⟨octave, _ | ⟨fourth, rest⟩⟩⟩⟩
  · exact ⟨_, rfl⟩
  · exact ⟨_, rfl⟩
  · -- A letter and a digit would be a natural note.
    refine exists_natural_error ?_ token
    rintro ⟨l, d, rfl, rfl⟩
    exact h ⟨l, .natural, d⟩ htoken
  · by_cases hparts : ∃ (l : Letter) (d : Fin 10), letter = l.char ∧ octave = Nat.digitChar d
    · obtain ⟨l, d, rfl, rfl⟩ := hparts
      have hsharp : mark ≠ 's' := by
        rintro rfl
        exact h ⟨l, .sharp, d⟩ htoken
      have hflat : mark ≠ 'b' := by
        rintro rfl
        exact h ⟨l, .flat, d⟩ htoken
      have hnatural : midiNumber l.steps d.val < 128 := by
        by_contra hhigh
        exact hrange ⟨l, mark, d, htoken, hsharp, hflat, by omega⟩
      obtain ⟨base, hbase⟩ :=
        exists_height_eq (NoteToken.naturalHeight_nonneg ⟨l, .natural, d⟩) hnatural
      refine ⟨.noteAccidental token, ?_⟩
      simp only [natural_char, new_eq_ok_iff_height.2 hbase]
      change (if mark = 's' then base.sharp
        else if mark = 'b' then base.flat else .error (.token (.noteAccidental token))) = _
      rw [if_neg hsharp, if_neg hflat]
    · obtain ⟨cause, hcause⟩ := exists_natural_error hparts token
      refine ⟨cause, ?_⟩
      simp only [hcause]
      rfl
  · exact ⟨_, rfl⟩

/-! ## All tokens -/

theorem parse_eq_ok_iff :
    parse token = .ok n ↔ ∃ w : NoteToken, token = w.text ∧ n.height = w.height := by
  constructor
  · intro hn
    by_cases hform : ∃ w : NoteToken, token = w.text
    · obtain ⟨w, rfl⟩ := hform
      exact ⟨w, rfl, parse_text_eq_ok_iff.1 hn⟩
    · exfalso
      by_cases hrange : IsBeyondRange token
      · obtain ⟨cause, hcause⟩ := exists_error_of_isBeyondRange hrange
        rw [hn] at hcause
        cases hcause
      · obtain ⟨cause, hcause⟩ := exists_error_of_malformed (not_exists.1 hform) hrange
        rw [hn] at hcause
        cases hcause
  · rintro ⟨w, rfl, hn⟩
    exact parse_text_eq_ok_iff.2 hn

theorem exists_parse_token_error_iff :
    (∃ cause, parse token = .error (.token cause)) ↔
      (∀ w : NoteToken, token ≠ w.text) ∧ ¬IsBeyondRange token := by
  constructor
  · rintro ⟨cause, hcause⟩
    constructor
    · rintro w rfl
      obtain ⟨range, hrange⟩ := failsInRange_parse_text w _ hcause
      cases hrange
    · intro hbeyond
      obtain ⟨range, hrange⟩ := exists_error_of_isBeyondRange hbeyond
      rw [hcause] at hrange
      cases hrange
  · rintro ⟨hform, hrange⟩
    exact exists_error_of_malformed hform hrange

theorem exists_parse_range_error_iff :
    (∃ cause, parse token = .error (.range cause)) ↔
      (∃ w : NoteToken, token = w.text ∧ ¬(0 ≤ w.height ∧ w.height < 128)) ∨
        IsBeyondRange token := by
  constructor
  · rintro ⟨cause, hcause⟩
    by_cases hform : ∃ w : NoteToken, token = w.text
    · obtain ⟨w, rfl⟩ := hform
      refine .inl ⟨w, rfl, ?_⟩
      rw [← exists_parse_text_iff, ← (failsInRange_parse_text w).exists_error_iff]
      exact ⟨cause, hcause⟩
    · refine .inr (of_not_not fun hrange => ?_)
      obtain ⟨malformed, hmalformed⟩ := exists_error_of_malformed (not_exists.1 hform) hrange
      rw [hcause] at hmalformed
      cases hmalformed
  · rintro (⟨w, rfl, hheight⟩ | hrange)
    · rwa [(failsInRange_parse_text w).exists_error_iff, exists_parse_text_iff]
    · exact exists_error_of_isBeyondRange hrange

/-- A token is read as the note at its height.  It is refused as malformed if it is no note token,
unless it is a natural note above the range with something in its middle.  Such a token is refused
for the range, and so are the note tokens at whose height there is no note. -/
theorem parse_result_iff (token : String) :
    (∀ n, parse token = .ok n ↔ ∃ w : NoteToken, token = w.text ∧ n.height = w.height) ∧
      ((∃ cause, parse token = .error (.token cause)) ↔
        (∀ w : NoteToken, token ≠ w.text) ∧ ¬IsBeyondRange token) ∧
      ((∃ cause, parse token = .error (.range cause)) ↔
        (∃ w : NoteToken, token = w.text ∧ ¬(0 ≤ w.height ∧ w.height < 128)) ∨
          IsBeyondRange token) :=
  ⟨fun _ => parse_eq_ok_iff, exists_parse_token_error_iff, exists_parse_range_error_iff⟩

/-- The natural note is looked up before the mark, which is that of no accidental. -/
theorem unknownMark_is_out_of_range :
    (∀ w : NoteToken, "Ax9" ≠ w.text) ∧
      parse "Ax9" = .error (.range (.note Letter.a.steps 9)) := by
  refine ⟨?_, by decide⟩
  rintro ⟨letter, accidental, octave⟩ htext
  rw [NoteToken.eq_text_iff] at htext
  cases accidental <;> simp [NoteToken.chars, Accidental.mark] at htext

end Note

end Arranger
