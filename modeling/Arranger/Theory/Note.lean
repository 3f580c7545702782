import Arranger.Theory.Error

/-!
# Notes

A note is a pitch class in an octave whose MIDI number lies in 0 to 127; middle C, MIDI number 60,
is C4.  The range is part of the type, so a note and its number determine each other.
-/

namespace Arranger

def midiNumber (pitchClass : PitchClass) (octave : Int) : Int := (octave + 1) * 12 + pitchClass.val

structure Note where
  pitchClass : PitchClass
  octave : Int
  inRange : 0 ≤ midiNumber pitchClass octave ∧ midiNumber pitchClass octave < 128
  deriving DecidableEq

/-- One of the 128 MIDI note numbers. -/
abbrev Pitch := Fin 128

/-- With one proof for all of them, numbers below 128 stand for pitches. -/
instance (priority := high) Pitch.neZero : @NeZero Nat Zero.ofOfNat0 128 := ⟨by decide⟩

namespace Note

def new (pitchClass : PitchClass) (octave : Int) : Except TheoryError Note :=
  if h : 0 ≤ midiNumber pitchClass octave ∧ midiNumber pitchClass octave < 128 then
    .ok ⟨pitchClass, octave, h⟩
  else .error (.range (.note pitchClass octave))

def midi (n : Note) : Pitch :=
  ⟨(midiNumber n.pitchClass n.octave).toNat, by have := n.inRange; omega⟩

def ofPitch (p : Pitch) : Note where
  pitchClass := ⟨p.val % 12, by omega⟩
  octave := (p.val / 12 : Nat) - 1
  inRange := by
    have := p.isLt
    simp only [midiNumber]
    omega

def ofMidi (value : Int) : Except TheoryError Note :=
  if h : 0 ≤ value ∧ value < 128 then .ok (ofPitch ⟨value.toNat, by omega⟩)
  else .error (.range (.midi value))

/-- The notes in the order of their MIDI numbers. -/
def all : List Note := (List.finRange 128).map ofPitch

def transpose (n : Note) (halfSteps : Int) : Except TheoryError Note :=
  ofMidi (n.midi.val + halfSteps)

def addWholeSteps (n : Note) (wholeSteps : Int) : Except TheoryError Note :=
  n.transpose (wholeSteps * 2)

def sharp (n : Note) : Except TheoryError Note := n.transpose 1

def flat (n : Note) : Except TheoryError Note := n.transpose (-1)

def withOctave (n : Note) (octave : Int) : Except TheoryError Note := new n.pitchClass octave

/-- The pitches to sound for a note. -/
def play (n : Note) : List Pitch := [n.midi]

def name (n : Note) : String := s!"{n.pitchClass.name}{n.octave}"

/-- A note in messages. -/
def shown (n : Note) : String := s!"Note({n.pitchClass.name}, {n.octave})"

def ofLetter? (letter : Char) : Option PitchClass :=
  if "CDEFGAB".toList.contains letter then PitchClass.ofFlatName? letter.toString else none

/-- The note of a natural letter and an octave digit. -/
def natural (token : String) (letter octave : Char) : Except TheoryError Note :=
  match ofLetter? letter with
  | none => .error (.token (.noteLetter token letter))
  | some pitchClass =>
      if Text.isAsciiDigit octave then new pitchClass (octave.toNat - '0'.toNat : Nat)
      else .error (.token (.noteOctave token))

/-- Reads a letter, an optional accidental and an octave digit.  The accidental moves the natural
note by a half step, so that the natural note too must be in range. -/
def parse (token : String) : Except TheoryError Note :=
  match token.toList with
  | [letter, octave] => natural token letter octave
  | [letter, accidental, octave] => do
      let base ← natural token letter octave
      if accidental = 's' then base.sharp
      else if accidental = 'b' then base.flat
      else .error (.token (.noteAccidental token))
  | _ => .error (.token (.noteLength token))

instance : LT Note := ⟨fun a b => a.midi < b.midi⟩

instance : LE Note := ⟨fun a b => a.midi ≤ b.midi⟩

instance (a b : Note) : Decidable (a < b) := inferInstanceAs (Decidable (a.midi < b.midi))

instance (a b : Note) : Decidable (a ≤ b) := inferInstanceAs (Decidable (a.midi ≤ b.midi))

/-- Notes in ascending order; equal notes keep their places. -/
def sort (notes : List Note) : List Note := notes.mergeSort fun a b => a ≤ b

theorem midi_val (n : Note) : (n.midi.val : Int) = midiNumber n.pitchClass n.octave := by
  have := n.inRange
  simp only [midi]
  omega

theorem midi_ofPitch (p : Pitch) : (ofPitch p).midi = p := by
  apply Fin.ext
  have hmidi : ((ofPitch p).midi.val : Int) =
      (((p.val / 12 : Nat) : Int) - 1 + 1) * 12 + (p.val % 12 : Nat) := midi_val (ofPitch p)
  omega

theorem ofPitch_midi (n : Note) : ofPitch n.midi = n := by
  obtain ⟨pitchClass, octave, hrange⟩ := n
  have hmidi := midi_val ⟨pitchClass, octave, hrange⟩
  have hlt := pitchClass.isLt
  simp only [midiNumber] at hmidi
  simp only [ofPitch, Note.mk.injEq, Fin.ext_iff]
  omega

end Note

def PitchClass.parse (text : String) : Except TheoryError PitchClass :=
  let stripped := String.ofList (Text.strip text.toList)
  match PitchClass.ofName? stripped with
  | some p => .ok p
  | none => .error (.token (.pitchClass stripped))

end Arranger
