import Arranger.Proofs.Text.Trimmed
import Arranger.Proofs.Theory.NoteTokens
import Arranger.Theory.Chord

/-!
# Chord tokens

A chord token is a note token with the name of a chord type behind it, in letters of either case and
perhaps after blanks.  The second and the third character tell where the note token ends, so that a
text begins with at most one note token.
-/

namespace Arranger

open Text (lowered strip)

/-! ## Names of chord types -/

namespace ChordType

variable {type : ChordType}

theorem eq_of_lowered_name_eq {type' : ChordType}
    (h : lowered type.name.toList = lowered type'.name.toList) : type = type' := by
  revert h
  cases type <;> cases type' <;> decide

theorem mem_all (type : ChordType) : type ∈ all := by
  cases type <;> decide

theorem ofChars?_eq_some_iff {name : List Char} :
    ofChars? name = some type ↔ lowered (strip name) = lowered type.name.toList := by
  unfold ofChars?
  constructor
  · intro h
    have hname := List.find?_some h
    exact (of_decide_eq_true hname).symm
  · intro h
    cases hfound : all.find? fun t => decide (lowered t.name.toList = lowered (strip name)) with
    | none =>
        have hnone := List.find?_eq_none.1 hfound type type.mem_all
        exact absurd (decide_eq_true h.symm) hnone
    | some found =>
        have hname := List.find?_some hfound
        rw [eq_of_lowered_name_eq ((of_decide_eq_true hname).trans h)]

theorem parse_eq_ok_iff {name : String} :
    parse name = .ok type ↔ lowered (strip name.toList) = lowered type.name.toList := by
  rw [← ofChars?_eq_some_iff, parse]
  cases ofChars? name.toList <;> simp

theorem three_le_length_name (type : ChordType) : 3 ≤ (lowered type.name.toList).length := by
  cases type <;> decide

theorem three_le_length_of_parse {name : List Char} (h : parse (String.ofList name) = .ok type) :
    3 ≤ name.length := by
  have hname := parse_eq_ok_iff.1 h
  rw [String.toList_ofList] at hname
  calc
    3 ≤ (lowered type.name.toList).length := type.three_le_length_name
    _ = (strip name).length := by rw [← hname, lowered, List.length_map]
    _ ≤ name.length := Text.length_trim_le _ _

end ChordType

/-! ## Note tokens in front -/

namespace NoteToken

variable {w w' : NoteToken} {rest rest' : List Char}

theorem isBlank_eq_false (w : NoteToken) : ∀ c ∈ w.chars, Text.isBlank c = false := by
  obtain ⟨letter, accidental, octave⟩ := w
  have hletter : Text.isBlank letter.char = false := by cases letter <;> decide
  have hdigit : ∀ d : Fin 10, Text.isBlank (Nat.digitChar d) = false := by decide
  have hmark : ∀ c ∈ accidental.mark, Text.isBlank c = false := by
    cases accidental with
    | natural => exact fun c hc => absurd hc List.not_mem_nil
    | flat => exact List.forall_mem_singleton.2 (by decide)
    | sharp => exact List.forall_mem_singleton.2 (by decide)
  intro c hc
  rcases List.mem_cons.1 hc with rfl | hc
  · exact hletter
  · rcases List.mem_append.1 hc with hc | hc
    · exact hmark c hc
    · rw [List.mem_singleton.1 hc]
      exact hdigit octave

theorem noteLength_chars_append (w : NoteToken) (rest : List Char) :
    Chord.noteLength (w.chars ++ rest) = w.chars.length := by
  obtain ⟨letter, accidental, octave⟩ := w
  have hdigit : ∀ d : Fin 10, Text.isDigit (Nat.digitChar d) = true ∧
      Nat.digitChar d ≠ 's' ∧ Nat.digitChar d ≠ 'b' := by decide +kernel
  obtain ⟨hisDigit, hsharp, hflat⟩ := hdigit octave
  cases accidental with
  | natural =>
      cases rest with
      | nil => rfl
      | cons next rest => simp [chars, digit, Accidental.mark, Chord.noteLength, hsharp, hflat]
  | flat => simp [chars, digit, Accidental.mark, Chord.noteLength, hisDigit]
  | sharp => simp [chars, digit, Accidental.mark, Chord.noteLength, hisDigit]

/-- A text begins with at most one note token. -/
theorem chars_append_inj (h : w.chars ++ rest = w'.chars ++ rest') :
    w.chars = w'.chars ∧ rest = rest' := by
  have hlength := noteLength_chars_append w rest
  rw [h, noteLength_chars_append] at hlength
  exact List.append_inj h hlength.symm

end NoteToken

namespace Chord

variable {token : String} {c : Chord}

theorem exists_chars_of_parse {u : List Char} {n : Note}
    (h : Note.parse (String.ofList u) = .ok n) : ∃ w : NoteToken, u = w.chars := by
  obtain ⟨w, hw, -⟩ := Note.parse_eq_ok_iff.1 h
  rw [NoteToken.eq_text_iff, String.toList_ofList] at hw
  exact ⟨w, hw⟩

/-- The token of a note and the name of a chord type stand one behind the other. -/
structure IsSplit (s u v : List Char) (c : Chord) : Prop where
  append : s = u ++ v
  root : Note.parse (String.ofList u) = .ok c.root
  name : lowered (strip v) = lowered c.type.name.toList

namespace IsSplit

variable {s u v u' v' : List Char} {c' : Chord}

theorem type (h : IsSplit s u v c) : ChordType.parse (String.ofList v) = .ok c.type := by
  rw [ChordType.parse_eq_ok_iff, String.toList_ofList]
  exact h.name

theorem unique (h : IsSplit s u v c) (h' : IsSplit s u' v' c') : u = u' ∧ v = v' := by
  obtain ⟨w, rfl⟩ := exists_chars_of_parse h.root
  obtain ⟨w', rfl⟩ := exists_chars_of_parse h'.root
  exact NoteToken.chars_append_inj (h.append.symm.trans h'.append)

end IsSplit

theorem parse_eq_ok_iff : parse token = .ok c ↔ ∃ u v, IsSplit (strip token.toList) u v c := by
  unfold parse
  dsimp only
  constructor
  · intro h
    split at h
    · cases h
    · obtain ⟨root, hroot, h⟩ := bind_eq_ok_iff.1 h
      obtain ⟨type, htype, h⟩ := bind_eq_ok_iff.1 h
      cases h
      rw [ChordType.parse_eq_ok_iff, String.toList_ofList] at htype
      exact ⟨_, _, (List.take_append_drop _ _).symm, hroot, htype⟩
  · rintro ⟨u, v, h⟩
    obtain ⟨w, rfl⟩ := exists_chars_of_parse h.root
    have hlength := ChordType.three_le_length_of_parse h.type
    have hne : ¬(String.ofList v).isEmpty = true := by
      intro hempty
      have hnil := congrArg String.toList (String.isEmpty_iff.1 hempty)
      rw [String.toList_ofList] at hnil
      subst hnil
      exact absurd hlength (by decide)
    rw [h.append, NoteToken.noteLength_chars_append, List.take_left, List.drop_left, if_neg hne,
      h.root, h.type]
    rfl

theorem parse_strip (token : String) : parse (String.ofList (strip token.toList)) = parse token := by
  unfold parse
  rw [String.toList_ofList, Text.strip_strip]

/-- The name of a note and that of a chord type, put together, are read as what they are read as
apart. -/
theorem parse_append {u v : String} {root : Note} {type : ChordType}
    (hroot : Note.parse u = .ok root) (htype : ChordType.parse v = .ok type) :
    parse (u ++ v) = .ok ⟨root, type⟩ := by
  obtain ⟨w, rfl, -⟩ := Note.parse_eq_ok_iff.1 hroot
  have hne : w.chars ≠ [] := List.cons_ne_nil _ _
  have hstrip : strip (w.text ++ v).toList = w.chars ++ v.toList.rdropWhile Text.isBlank := by
    rw [String.toList_append, NoteToken.toList_text]
    exact Text.trim_append_of_not hne w.isBlank_eq_false v.toList
  have hname : lowered (strip (v.toList.rdropWhile Text.isBlank)) = lowered type.name.toList := by
    rw [strip, Text.trim_rdropWhile]
    exact ChordType.parse_eq_ok_iff.1 htype
  exact parse_eq_ok_iff.2 ⟨_, _, hstrip, hroot, hname⟩

end Chord

end Arranger
