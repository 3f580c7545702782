import Arranger.Notation
import Arranger.Proofs.Decimal.Spelling
import Arranger.Proofs.Theory.ChordTokens
import Arranger.Proofs.Theory.Chords

/-!
# The forms of event tokens

An event is a rest, a group of numbers, a note or a chord.  No token has two of these forms, so that
the order in which they are tried, and the length of the token, make no difference.
-/

namespace Arranger.Notation

open Text (lowered strip wordsBy)

inductive EventForm where
  | rest
  | numbers (values : List Nat)
  | note (n : Note)
  | chord (c : Chord) (notes : List Note)

namespace EventForm

/-- The numbers that sound together; none for a rest. -/
def group : EventForm → Option (List Nat)
  | rest => none
  | numbers values => some values
  | note n => some [n.midi.val]
  | chord _ notes => some (notes.map (·.midi.val))

def IsPitched : EventForm → Prop
  | rest => False
  | numbers _ => False
  | note _ => True
  | chord _ _ => True

end EventForm

/-- The form of a token without blanks around it. -/
inductive Denotes (s : List Char) : EventForm → Prop
  | rest (hword : String.ofList (lowered s) ∈ restTokens) : Denotes s .rest
  | numbers (hne : wordsBy isSeparator s ≠ [])
      (hdigits : ∀ part ∈ wordsBy isSeparator s, ∀ c ∈ part, Text.isAsciiDigit c = true)
      (hlimit : ∀ part ∈ wordsBy isSeparator s, part.length ≤ Text.digitLimit) :
      Denotes s (.numbers ((wordsBy isSeparator s).map Decimal.digitsValue))
  | note {n : Note} (hnote : Note.parse (String.ofList s) = .ok n) : Denotes s (.note n)
  | chord {c : Chord} {notes : List Note} (hchord : Chord.parse (String.ofList s) = .ok c)
      (hvoicing : c.voicing 0 = .ok notes) : Denotes s (.chord c notes)

variable {token : String} {s rest : List Char} {c : Char} {parts : List (List Char)}

/-! ## Groups of numbers -/

theorem numberGroup?_eq_some_iff :
    numberGroup? s = some parts ↔
      parts = wordsBy isSeparator s ∧ parts ≠ [] ∧
        ∀ part ∈ parts, ∀ c ∈ part, Text.isAsciiDigit c = true := by
  unfold numberGroup?
  dsimp only
  split
  · next h =>
    simp only [Bool.and_eq_true, Bool.not_eq_true', List.isEmpty_eq_false_iff, List.all_eq_true]
      at h
    rw [Option.some.injEq]
    constructor
    · rintro rfl
      exact ⟨rfl, h⟩
    · rintro ⟨rfl, -⟩
      rfl
  · next h =>
    simp only [Bool.and_eq_true, Bool.not_eq_true', List.isEmpty_eq_false_iff, List.all_eq_true]
      at h
    simp only [reduceCtorEq, false_iff]
    rintro ⟨rfl, hparts⟩
    exact h hparts

theorem readNatural_eq_ok_iff {part : List Char} {n : Nat} :
    Text.readNatural part = .ok n ↔
      part.length ≤ Text.digitLimit ∧ Decimal.digitsValue part = n := by
  unfold Text.readNatural
  rw [Decimal.ofDigits_map_digits]
  split
  · next hlong => simp [Nat.not_le.2 hlong]
  · next hshort => simp [Nat.not_lt.1 hshort]

/-- A group is read if none of its numbers is too long. -/
theorem readGroup_eq_ok_iff {values : List Nat} :
    readGroup parts = .ok values ↔
      (∀ part ∈ parts, part.length ≤ Text.digitLimit) ∧ values = parts.map Decimal.digitsValue := by
  induction parts generalizing values with
  | nil => simp [readGroup, pure, Except.pure, eq_comm]
  | cons part rest ih =>
      have hrest : readGroup (part :: rest) = (do
          let n ← (Text.readNatural part).mapError fun cause => .value (.integer cause)
          let values ← readGroup rest
          return n :: values) := by
        simp only [readGroup, List.mapM_cons]
        cases Text.readNatural part <;> rfl
      simp only [hrest, bind_eq_ok_iff, mapError_eq_ok_iff, readNatural_eq_ok_iff, ih,
        pure, Except.pure, Except.ok.injEq, List.forall_mem_cons, List.map_cons]
      constructor
      · rintro ⟨_, ⟨hpart, rfl⟩, _, ⟨hlengths, rfl⟩, rfl⟩
        exact ⟨⟨hpart, hlengths⟩, rfl⟩
      · rintro ⟨⟨hpart, hlengths⟩, rfl⟩
        exact ⟨_, ⟨hpart, rfl⟩, _, ⟨hlengths, rfl⟩, rfl⟩

/-- The numbers of a chord token are those of its root position. -/
theorem chordEvent_of_parse {c : Chord} (h : Chord.parse token = .ok c) :
    chordEvent token = (fun notes => notes.map (·.midi.val)) <$> c.voicing 0 := by
  have hplay : Chord.parse token >>= Chord.play = c.play := by
    rw [h]
    rfl
  unfold chordEvent
  rw [hplay]
  unfold Chord.play
  cases hvoicing : c.voicing 0 with
  | ok notes => exact congrArg Except.ok List.map_map
  | error cause =>
      obtain ⟨cause, rfl⟩ := c.failsInRange_voicing 0 _ hvoicing
      rfl

theorem exists_voicing_of_chordEvent {numbers : List Nat} (h : chordEvent token = .ok numbers) :
    ∃ c notes, Chord.parse token = .ok c ∧ c.voicing 0 = .ok notes ∧
      numbers = notes.map (·.midi.val) := by
  cases hparse : Chord.parse token with
  | error cause =>
      unfold chordEvent at h
      rw [hparse] at h
      cases cause <;> cases h
  | ok c =>
      rw [chordEvent_of_parse hparse] at h
      obtain ⟨notes, hnotes, rfl⟩ := map_eq_ok_iff.1 h
      exact ⟨c, notes, rfl, hnotes, rfl⟩

/-! ## How tokens begin -/

/-- The token begins with a character that is neither a separator nor a digit. -/
def BeginsWord (s : List Char) : Prop :=
  ∃ c rest, s = c :: rest ∧ isSeparator c = false ∧ Text.isAsciiDigit c = false

theorem exists_wordsBy_cons (hword : isSeparator c = false) (rest : List Char) :
    ∃ piece pieces, wordsBy isSeparator (c :: rest) = (c :: piece) :: pieces := by
  unfold wordsBy Text.splitOn
  rw [hword, if_neg Bool.false_ne_true]
  split
  · exact ⟨[], [], rfl⟩
  · exact ⟨_, _, rfl⟩

theorem BeginsWord.exists_not_digit (h : BeginsWord s) :
    ¬∀ part ∈ wordsBy isSeparator s, ∀ c ∈ part, Text.isAsciiDigit c = true := by
  obtain ⟨c, rest, rfl, hword, hdigit⟩ := h
  obtain ⟨piece, pieces, hpieces⟩ := exists_wordsBy_cons hword rest
  intro hdigits
  rw [hpieces] at hdigits
  have hcontra := hdigits _ List.mem_cons_self c List.mem_cons_self
  rw [hdigit] at hcontra
  cases hcontra

theorem BeginsWord.numberGroup?_eq_none (h : BeginsWord s) : numberGroup? s = none := by
  cases hgroup : numberGroup? s with
  | none => rfl
  | some parts =>
      obtain ⟨rfl, -, hdigits⟩ := numberGroup?_eq_some_iff.1 hgroup
      exact absurd hdigits h.exists_not_digit

theorem isSeparator_of_isUpperLetter (h : Text.isUpperLetter c = true) :
    isSeparator c = false ∧ Text.isAsciiDigit c = false := by
  have hbounds : 65 ≤ c.toNat ∧ c.toNat ≤ 90 := by
    simp only [Text.isUpperLetter, Bool.and_eq_true, decide_eq_true_eq, Char.le_def,
      UInt32.le_iff_toNat_le] at h
    exact h
  obtain ⟨hlow, hhigh⟩ := hbounds
  constructor
  · have hcomma : c ≠ ',' := by
      rintro rfl
      exact absurd hlow (by decide)
    simp only [isSeparator, hcomma, decide_false, Bool.false_or, Text.isBlank, Bool.or_eq_false_iff,
      Bool.and_eq_false_iff, decide_eq_false_iff_not, beq_eq_false_iff_ne]
    omega
  · have hnine : '9'.toNat = 57 := rfl
    simp only [Text.isAsciiDigit, Bool.and_eq_false_iff, decide_eq_false_iff_not, Char.le_def,
      UInt32.le_iff_toNat_le]
    right
    change ¬c.toNat ≤ '9'.toNat
    omega

theorem exists_head_of_rest (h : String.ofList (lowered s) ∈ restTokens) :
    ∃ c rest, s = c :: rest ∧ Text.asciiLower c ∈ ['r', '_', '-'] := by
  have hhead : ∃ d ∈ ['r', '_', '-'], (lowered s).head? = some d := by
    simp only [restTokens, List.mem_cons, List.not_mem_nil, or_false, ← String.toList_inj,
      String.toList_ofList] at h
    rcases h with h | h | h | h
    · exact ⟨'r', by decide, by rw [h]; rfl⟩
    · exact ⟨'r', by decide, by rw [h]; rfl⟩
    · exact ⟨'_', by decide, by rw [h]; rfl⟩
    · exact ⟨'-', by decide, by rw [h]; rfl⟩
  obtain ⟨d, hd, hhead⟩ := hhead
  cases s with
  | nil => cases hhead
  | cons c rest =>
      have hc : Text.asciiLower c = d := Option.some.inj hhead
      exact ⟨c, rest, rfl, hc ▸ hd⟩

theorem beginsWord_of_rest (h : String.ofList (lowered s) ∈ restTokens) : BeginsWord s := by
  obtain ⟨c, rest, rfl, hc⟩ := exists_head_of_rest h
  refine ⟨c, rest, rfl, ?_⟩
  by_cases hupper : Text.isUpperLetter c = true
  · exact isSeparator_of_isUpperLetter hupper
  · have hheads : ∀ d ∈ ['r', '_', '-'], isSeparator d = false ∧ Text.isAsciiDigit d = false := by
      rw [List.forall_mem_cons, List.forall_mem_cons, List.forall_mem_singleton]
      decide
    rw [Text.asciiLower, if_neg hupper] at hc
    exact hheads c hc

theorem beginsWord_chars_append (w : NoteToken) (rest : List Char) :
    BeginsWord (w.chars ++ rest) := by
  have hletter : Text.isUpperLetter w.letter.char = true := by cases w.letter <;> decide
  exact ⟨w.letter.char, _, rfl, isSeparator_of_isUpperLetter hletter⟩

theorem not_rest_chars_append (w : NoteToken) (rest : List Char) :
    String.ofList (lowered (w.chars ++ rest)) ∉ restTokens := by
  intro h
  obtain ⟨c, tail, hchars, hc⟩ := exists_head_of_rest h
  obtain ⟨rfl, -⟩ := List.cons.inj hchars
  revert hc
  cases w.letter <;> decide

/-! ## One form for each token -/

section

variable {form form' : EventForm} {n : Note} {chord : Chord}

theorem eq_chars_of_note (h : Note.parse (String.ofList s) = .ok n) :
    ∃ w : NoteToken, s = w.chars ++ [] := by
  obtain ⟨w, rfl⟩ := Chord.exists_chars_of_parse h
  exact ⟨w, (List.append_nil _).symm⟩

theorem eq_chars_of_chord (hs : strip s = s) (h : Chord.parse (String.ofList s) = .ok chord) :
    ∃ (w : NoteToken) (v : List Char), s = w.chars ++ v ∧ 3 ≤ v.length := by
  obtain ⟨u, v, hsplit⟩ := Chord.parse_eq_ok_iff.1 h
  rw [String.toList_ofList, hs] at hsplit
  obtain ⟨w, rfl⟩ := Chord.exists_chars_of_parse hsplit.root
  exact ⟨w, v, hsplit.append, ChordType.three_le_length_of_parse hsplit.type⟩

namespace Denotes

/-- A note and a chord begin with a note token. -/
theorem exists_chars (hs : strip s = s) (h : Denotes s form) (hpitched : form.IsPitched) :
    ∃ (w : NoteToken) (v : List Char), s = w.chars ++ v := by
  cases h with
  | rest => cases hpitched
  | numbers => cases hpitched
  | note hnote =>
      obtain ⟨w, hw⟩ := eq_chars_of_note hnote
      exact ⟨w, [], hw⟩
  | chord hchord =>
      obtain ⟨w, v, hw, -⟩ := eq_chars_of_chord hs hchord
      exact ⟨w, v, hw⟩

theorem not_rest (hs : strip s = s) (h : Denotes s form) (hpitched : form.IsPitched) :
    String.ofList (lowered s) ∉ restTokens := by
  obtain ⟨w, v, rfl⟩ := h.exists_chars hs hpitched
  exact not_rest_chars_append w v

theorem beginsWord (hs : strip s = s) (h : Denotes s form) (hpitched : form.IsPitched) :
    BeginsWord s := by
  obtain ⟨w, v, rfl⟩ := h.exists_chars hs hpitched
  exact beginsWord_chars_append w v

theorem eq_rest (hs : strip s = s) (h : Denotes s form)
    (hword : String.ofList (lowered s) ∈ restTokens) : form = .rest := by
  cases h with
  | rest => rfl
  | numbers _ hdigits => exact absurd hdigits (beginsWord_of_rest hword).exists_not_digit
  | note hnote => exact absurd hword ((note hnote).not_rest hs trivial)
  | chord hchord hvoicing => exact absurd hword ((chord hchord hvoicing).not_rest hs trivial)

theorem eq_numbers (hs : strip s = s) (h : Denotes s form)
    (hdigits : ∀ part ∈ wordsBy isSeparator s, ∀ c ∈ part, Text.isAsciiDigit c = true) :
    form = .numbers ((wordsBy isSeparator s).map Decimal.digitsValue) := by
  cases h with
  | rest hword => exact absurd hdigits (beginsWord_of_rest hword).exists_not_digit
  | numbers => rfl
  | note hnote => exact absurd hdigits ((note hnote).beginsWord hs trivial).exists_not_digit
  | chord hchord hvoicing =>
      exact absurd hdigits ((chord hchord hvoicing).beginsWord hs trivial).exists_not_digit

/-- A chord token is longer than its note token. -/
theorem eq_note (hs : strip s = s) (h : Denotes s form)
    (hnote : Note.parse (String.ofList s) = .ok n) : form = .note n := by
  cases h with
  | rest hword => exact (eq_rest hs (note hnote) hword).symm
  | numbers _ hdigits => exact (eq_numbers hs (note hnote) hdigits).symm
  | note hnote' =>
      rw [hnote, Except.ok.injEq] at hnote'
      rw [hnote']
  | chord hchord =>
      obtain ⟨w, hw⟩ := eq_chars_of_note hnote
      obtain ⟨w', v, hw', hlength⟩ := eq_chars_of_chord hs hchord
      obtain ⟨-, rfl⟩ := NoteToken.chars_append_inj (hw.symm.trans hw')
      exact absurd hlength (by decide)

theorem unique (hs : strip s = s) (h : Denotes s form) (h' : Denotes s form') : form = form' := by
  cases h with
  | rest hword => exact (h'.eq_rest hs hword).symm
  | numbers _ hdigits => exact (h'.eq_numbers hs hdigits).symm
  | note hnote => exact (h'.eq_note hs hnote).symm
  | chord hchord hvoicing =>
      cases h' with
      | rest hword => exact (chord hchord hvoicing).eq_rest hs hword
      | numbers _ hdigits => exact (chord hchord hvoicing).eq_numbers hs hdigits
      | note hnote => exact (chord hchord hvoicing).eq_note hs hnote
      | chord hchord' hvoicing' =>
          rw [hchord, Except.ok.injEq] at hchord'
          subst hchord'
          rw [hvoicing, Except.ok.injEq] at hvoicing'
          rw [hvoicing']

end Denotes

/-! ## Reading events -/

/-- What begins with a note token is a note or a chord, of which the length decides. -/
theorem event_of_chars {w : NoteToken} {v : List Char} (hw : strip token.toList = w.chars ++ v) :
    event token =
      if (strip token.toList).length ≤ 3 then
        (fun n => some (pitchNumbers n.play)) <$> Note.parse (String.ofList (strip token.toList))
      else some <$> chordEvent (String.ofList (strip token.toList)) := by
  have hrest : ¬restTokens.contains (String.ofList (lowered (strip token.toList))) = true := by
    rw [hw]
    exact mt List.contains_iff_mem.1 (not_rest_chars_append w v)
  have hnumbers : numberGroup? (strip token.toList) = none := by
    rw [hw]
    exact (beginsWord_chars_append w v).numberGroup?_eq_none
  unfold event
  dsimp only
  rw [if_neg hrest, hnumbers]

theorem event_of_note (h : Note.parse (String.ofList (strip token.toList)) = .ok n) :
    event token = .ok (some [n.midi.val]) := by
  obtain ⟨w, hw⟩ := eq_chars_of_note h
  have hlength : (strip token.toList).length ≤ 3 := by
    rw [hw, List.append_nil]
    exact w.length_chars.2
  rw [event_of_chars hw, if_pos hlength, h]
  rfl

theorem event_of_chord (h : Chord.parse (String.ofList (strip token.toList)) = .ok chord) :
    event token = (fun notes => some (notes.map (·.midi.val))) <$> chord.voicing 0 := by
  obtain ⟨w, v, hw, hv⟩ := eq_chars_of_chord (Text.strip_strip _) h
  have hlength : ¬(strip token.toList).length ≤ 3 := by
    have hchars := w.length_chars.1
    rw [hw, List.length_append]
    omega
  rw [event_of_chars hw, if_neg hlength, chordEvent_of_parse h]
  cases chord.voicing 0 <;> rfl

theorem event_of_rest (h : String.ofList (lowered (strip token.toList)) ∈ restTokens) :
    event token = .ok none := by
  unfold event
  dsimp only
  rw [if_pos (List.contains_iff_mem.2 h)]

theorem event_of_numbers (h : numberGroup? (strip token.toList) = some parts) :
    event token = some <$> readGroup parts := by
  have hrest : ¬restTokens.contains (String.ofList (lowered (strip token.toList))) = true := by
    intro hword
    rw [(beginsWord_of_rest (List.contains_iff_mem.1 hword)).numberGroup?_eq_none] at h
    cases h
  unfold event
  dsimp only
  rw [if_neg hrest, h]

theorem Denotes.event_eq (h : Denotes (strip token.toList) form) :
    event token = .ok form.group := by
  cases h with
  | rest hword => exact event_of_rest hword
  | numbers hne hdigits hlimit =>
      rw [event_of_numbers (numberGroup?_eq_some_iff.2 ⟨rfl, hne, hdigits⟩),
        readGroup_eq_ok_iff.2 ⟨hlimit, rfl⟩]
      rfl
  | note hnote => exact event_of_note hnote
  | chord hchord hvoicing =>
      rw [event_of_chord hchord, hvoicing]
      rfl

end

theorem exists_denotes_of_event {group : Option (List Nat)} (h : event token = .ok group) :
    ∃ form, Denotes (strip token.toList) form ∧ group = form.group := by
  unfold event at h
  dsimp only at h
  split at h
  · next hword =>
    cases h
    exact ⟨.rest, .rest (List.contains_iff_mem.1 hword), rfl⟩
  · split at h
    · next parts hparts =>
      obtain ⟨rfl, hne, hdigits⟩ := numberGroup?_eq_some_iff.1 hparts
      obtain ⟨values, hvalues, rfl⟩ := map_eq_ok_iff.1 h
      obtain ⟨hlimit, rfl⟩ := readGroup_eq_ok_iff.1 hvalues
      exact ⟨_, .numbers hne hdigits hlimit, rfl⟩
    · split at h
      · obtain ⟨n, hnote, rfl⟩ := map_eq_ok_iff.1 h
        exact ⟨.note n, .note hnote, rfl⟩
      · obtain ⟨numbers, hnumbers, rfl⟩ := map_eq_ok_iff.1 h
        obtain ⟨c, notes, hchord, hvoicing, rfl⟩ := exists_voicing_of_chordEvent hnumbers
        exact ⟨.chord c notes, .chord hchord hvoicing, rfl⟩

/-! ## Notes that sound together -/

/-- The root position has a note for each numeral, and they ascend. -/
theorem ascends_of_voicing {c : Chord} {notes : List Note} (h : c.voicing 0 = .ok notes) :
    notes ≠ [] ∧ (notes.map (·.midi.val)).Pairwise (· < ·) := by
  have hsize := c.formula_length_pos
  have hheights := Chord.map_height_of_voicing le_rfl (by omega) h
  have hlength : notes.length = c.formula.length := by
    rw [← List.length_map Note.height, hheights, Chord.heights_eq, List.length_map,
      Int.toNat_zero, ChordType.steps_zero, List.length_map]
    rfl
  have hascends := c.pairwise_heights_zero
  rw [← hheights, List.pairwise_map] at hascends
  constructor
  · rintro rfl
    exact absurd hlength hsize.ne
  · rw [List.pairwise_map]
    exact hascends.imp fun hlt => Int.ofNat_lt.1 hlt

theorem Denotes.ascends {form : EventForm} (h : Denotes s form) (hpitched : form.IsPitched) :
    ∃ numbers, form.group = some numbers ∧ numbers ≠ [] ∧ numbers.Pairwise (· < ·) ∧
      ∀ k ∈ numbers, k < 128 := by
  cases h with
  | rest => cases hpitched
  | numbers => cases hpitched
  | @note n hnote =>
      refine ⟨_, rfl, List.cons_ne_nil _ _, List.pairwise_singleton _ _, ?_⟩
      intro k hk
      rw [List.mem_singleton.1 hk]
      exact n.midi.isLt
  | chord hchord hvoicing =>
      obtain ⟨hne, hascends⟩ := ascends_of_voicing hvoicing
      refine ⟨_, rfl, mt List.map_eq_nil_iff.1 hne, hascends, ?_⟩
      intro k hk
      obtain ⟨n, -, rfl⟩ := List.mem_map.1 hk
      exact n.midi.isLt

/-- A chord token denotes an event if the notes of its root position are in range, and the tones of
its numerals too. -/
theorem exists_denotes_chord_iff {c : Chord} (hchord : Chord.parse (String.ofList s) = .ok c) :
    (∃ notes, Denotes s (.chord c notes)) ↔
      (∀ h ∈ c.heights 0, h < 128) ∧ ∀ numeral ∈ c.formula,
        c.root.height + c.referenceScale.offset (numeral.degree - 1) < 128 := by
  have hsize := c.formula_length_pos
  have hvoicing := Chord.exists_voicing_iff_inRange (c := c) le_rfl (by omega)
  simp only [forall_const] at hvoicing
  rw [← hvoicing]
  constructor
  · rintro ⟨notes, hnotes⟩
    cases hnotes with
    | chord _ hvoicing => exact ⟨notes, hvoicing⟩
  · rintro ⟨notes, hnotes⟩
    exact ⟨notes, .chord hchord hnotes⟩

/-- A token is read as what it denotes, and refused if it denotes nothing.  It denotes at most one
event.  The numbers of a note or a chord ascend in the range, and a chord token denotes an event if
the notes of its root position, and the tones of its numerals, are in range. -/
theorem event_result_iff (token : String) :
    (∀ group, event token = .ok group ↔
      ∃ form, Denotes (strip token.toList) form ∧ group = form.group) ∧
    ((∃ cause, event token = .error cause) ↔ ¬∃ form, Denotes (strip token.toList) form) ∧
    (∀ form form', Denotes (strip token.toList) form → Denotes (strip token.toList) form' →
      form = form') ∧
    (∀ form, Denotes (strip token.toList) form → form.IsPitched →
      ∃ numbers, form.group = some numbers ∧ numbers ≠ [] ∧ numbers.Pairwise (· < ·) ∧
        ∀ k ∈ numbers, k < 128) ∧
    ∀ c, Chord.parse (String.ofList (strip token.toList)) = .ok c →
      ((∃ notes, Denotes (strip token.toList) (.chord c notes)) ↔
        (∀ h ∈ c.heights 0, h < 128) ∧ ∀ numeral ∈ c.formula,
          c.root.height + c.referenceScale.offset (numeral.degree - 1) < 128) := by
  have hread : ∀ group, event token = .ok group ↔
      ∃ form, Denotes (strip token.toList) form ∧ group = form.group := by
    intro group
    constructor
    · exact exists_denotes_of_event
    · rintro ⟨form, hform, rfl⟩
      exact hform.event_eq
  refine ⟨hread, ?_, ?_, fun form hform => hform.ascends, fun c => exists_denotes_chord_iff⟩
  · constructor
    · rintro ⟨cause, hcause⟩ ⟨form, hform⟩
      rw [hform.event_eq] at hcause
      cases hcause
    · intro hnone
      cases hevent : event token with
      | error cause => exact ⟨cause, rfl⟩
      | ok group =>
          obtain ⟨form, hform, -⟩ := (hread group).1 hevent
          exact absurd ⟨form, hform⟩ hnone
  · intro form form' hform hform'
    exact hform.unique (Text.strip_strip _) hform'

theorem event_result_iff_spacedChord : event "\tEb4 min7 " = .ok (some [63, 66, 70, 73]) := by
  have hchord : Chord.parse (String.ofList (strip "\tEb4 min7 ".toList)) =
      .ok ⟨Note.ofPitch 63, .minorSeventh⟩ := by decide +kernel
  have hvoicing : (⟨Note.ofPitch 63, .minorSeventh⟩ : Chord).voicing 0 =
      .ok [Note.ofPitch 63, Note.ofPitch 66, Note.ofPitch 70, Note.ofPitch 73] := by decide +kernel
  exact ((event_result_iff _).1 _).2 ⟨_, .chord hchord hvoicing, rfl⟩

/-- The notes of the chord are in range, and the tone of its flat seventh is not. -/
theorem highSeventh_in_range_not_read :
    Chord.parse "A8Min7" = .ok Chord.highSeventh ∧
      Chord.highSeventh.heights 0 = [117, 120, 124, 127] ∧
        event "A8Min7" = .error (.range (.midi 128)) := by
  refine ⟨by decide +kernel, by decide +kernel, by decide +kernel⟩

end Arranger.Notation
