import Arranger.Text.Integer
import Arranger.Theory.PitchClass

/-!
# What can be wrong with a musical expression

A token may be malformed, a pitch or an inversion may lie outside its range, and a number or a
name may denote none of the values it should.  Each cause is a constructor; its wording is given
once, by `message`.
-/

namespace Arranger

open Text (quoted)

/-- A token that is none of the forms it should have. -/
inductive TokenError where
  | pitchClass (name : String)
  | noteLength (token : String)
  | noteLetter (token : String) (letter : Char)
  | noteOctave (token : String)
  | noteAccidental (token : String)
  | numeral (symbol : String)
  | chordTypeMissing (token : String)
  | chordType (name : String)
  | durationLetter (letter : String)
  | event (token : String) (cause : TokenError)
  deriving DecidableEq, Repr

def TokenError.message : TokenError → String
  | .pitchClass name => s!"Unknown pitch class: {quoted name}"
  | .noteLength token =>
      s!"Invalid note token {quoted token}: expected e.g. 'C4', 'Cs4', 'Db4'"
  | .noteLetter token letter =>
      s!"Invalid note token {quoted token}: unknown note letter {quoted letter.toString}"
  | .noteOctave token => s!"Invalid note token {quoted token}: octave must be a single digit"
  | .noteAccidental token =>
      s!"Invalid note token {quoted token}: accidental must be 's' or 'b'"
  | .numeral symbol => s!"Invalid numeral: {quoted symbol}"
  | .chordTypeMissing token => s!"Invalid chord token {quoted token}: missing chord type"
  | .chordType name => s!"Unknown chord type: {quoted name}"
  | .durationLetter letter => s!"Unknown duration letter: {quoted letter}"
  | .event token cause => s!"Invalid event {quoted token}: {cause.message}"

/-- A pitch or a position outside its range. -/
inductive RangeError where
  | note (pitchClass : PitchClass) (octave : Int)
  | midi (value : Int)
  | inversion (last : Nat) (chord : String) (given : Int)
  deriving DecidableEq, Repr

def RangeError.message : RangeError → String
  | .note pitchClass octave => s!"Note {pitchClass.name}{octave} is outside the MIDI range (0-127)"
  | .midi value => s!"MIDI note must be 0-127, got {value}"
  | .inversion last chord given => s!"Inversion must be 0-{last} for {chord}, got {given}"

/-- A number or a name that denotes nothing of the wanted kind. -/
inductive ValueError where
  | pitchClass (value : Int)
  | accidental (value : Int)
  | scaleType (name : String)
  /-- A value other than a text in the place of a name. -/
  | scaleTypeValue (shown : String)
  | chordType (name : String)
  | degree (value : Int)
  | integer (cause : Text.IntegerError)
  deriving DecidableEq, Repr

def ValueError.message : ValueError → String
  | .pitchClass value => s!"{value} is not a valid PitchClass"
  | .accidental value => s!"{value} is not a valid Accidental"
  | .scaleType name => s!"{quoted name} is not a valid ScaleType"
  | .scaleTypeValue shown => s!"{shown} is not a valid ScaleType"
  | .chordType name => s!"{quoted name} is not a valid ChordType"
  | .degree value => s!"Numeral degree must be >= 1, got {value}"
  | .integer cause => cause.message

inductive TheoryError where
  | token (cause : TokenError)
  | range (cause : RangeError)
  | value (cause : ValueError)
  deriving DecidableEq, Repr

def TheoryError.message : TheoryError → String
  | .token cause => cause.message
  | .range cause => cause.message
  | .value cause => cause.message

end Arranger
