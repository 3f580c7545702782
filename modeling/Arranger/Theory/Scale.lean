import Arranger.Theory.Note
import Arranger.Theory.Numeral

/-!
# Scales

A scale is a type of scale on a base note.  The type gives the offsets of its tones above the
base in half steps; the octave repeats them.  A numeral is resolved to the lowest note of its
pitch class that is not below the preceding note.
-/

namespace Arranger

inductive ScaleType where
  | major
  | mixolydian
  | dorian
  | naturalMinor
  | harmonicMinor
  | melodicMinor
  | phrygian
  | lydian
  | locrian
  | majorPentatonic
  | minorPentatonic
  | blues
  deriving DecidableEq, Repr

namespace ScaleType

def all : List ScaleType := [major, mixolydian, dorian, naturalMinor, harmonicMinor, melodicMinor,
  phrygian, lydian, locrian, majorPentatonic, minorPentatonic, blues]

def name : ScaleType → String
  | major => "major"
  | mixolydian => "mixolydian"
  | dorian => "dorian"
  | naturalMinor => "natural_minor"
  | harmonicMinor => "harmonic_minor"
  | melodicMinor => "melodic_minor"
  | phrygian => "phrygian"
  | lydian => "lydian"
  | locrian => "locrian"
  | majorPentatonic => "major_pentatonic"
  | minorPentatonic => "minor_pentatonic"
  | blues => "blues"

/-- The offsets of the tones above the base, in half steps, without the octave. -/
def formula : ScaleType → List Nat
  | major => [0, 2, 4, 5, 7, 9, 11]
  | mixolydian => [0, 2, 4, 5, 7, 9, 10]
  | dorian => [0, 2, 3, 5, 7, 9, 10]
  | naturalMinor => [0, 2, 3, 5, 7, 8, 10]
  | harmonicMinor => [0, 2, 3, 5, 7, 8, 11]
  | melodicMinor => [0, 2, 3, 5, 7, 9, 11]
  | phrygian => [0, 1, 3, 5, 7, 8, 10]
  | lydian => [0, 2, 4, 6, 7, 9, 11]
  | locrian => [0, 1, 3, 5, 6, 8, 10]
  | majorPentatonic => [0, 2, 4, 7, 9]
  | minorPentatonic => [0, 3, 5, 7, 10]
  | blues => [0, 3, 5, 6, 7, 10]

def named (name : String) : Except TheoryError ScaleType :=
  match all.find? (·.name = name) with
  | some t => .ok t
  | none => .error (.value (.scaleType name))

end ScaleType

structure Scale where
  base : Note
  type : ScaleType
  deriving DecidableEq

namespace Scale

def formula (s : Scale) : List Nat := s.type.formula

/-- The half steps from the base to a tone that lies a number of scale steps away. -/
def offset (s : Scale) (steps : Int) : Int :=
  let size : Int := s.formula.length
  let octaves := steps.fdiv size
  let index := (steps.fmod size).toNat
  octaves * 12 + ((s.formula[index]?.getD 0 : Nat) : Int)

/-- The note a number of scale steps away from the base, up or down. -/
def degree (s : Scale) (steps : Int) : Except TheoryError Note :=
  s.base.transpose (s.offset steps)

/-- The lowest note at or above `preceding` with the pitch class of a numeral: the tone is moved
into the octave of `preceding`, and up by one octave if it lies below it there. -/
def resolve (s : Scale) (numeral : Numeral) (preceding : Note) : Except TheoryError Note := do
  let tone ← s.degree (numeral.degree - 1)
  let altered ← tone.transpose numeral.accidental.halfSteps
  let beside ← altered.withOctave preceding.octave
  if beside < preceding then beside.withOctave (preceding.octave + 1) else .ok beside

def voicingFrom (s : Scale) (preceding : Note) : List Numeral → Except TheoryError (List Note)
  | [] => .ok []
  | numeral :: rest => do
      let note ← s.resolve numeral preceding
      let notes ← voicingFrom s note rest
      return note :: notes

/-- Resolves numerals in turn, the first at or above the base and each other one at or above its
predecessor. -/
def voicing (s : Scale) (numerals : List Numeral) : Except TheoryError (List Note) :=
  s.voicingFrom s.base numerals

def degreesFrom (s : Scale) : Nat → Int → Except TheoryError (List Note)
  | 0, _ => .ok []
  | count + 1, steps => do
      let note ← s.degree steps
      let notes ← degreesFrom s count (steps + 1)
      return note :: notes

/-- The ascending notes of a number of octaves. -/
def notes (s : Scale) (octaves : Int) : Except TheoryError (List Note) :=
  s.degreesFrom (s.formula.length * octaves).toNat 0

def text (s : Scale) : String := s!"{s.base.name} {s.type.name}"

theorem offset_zero (s : Scale) : s.offset 0 = 0 := by
  obtain ⟨base, type⟩ := s
  cases type <;> rfl

end Scale

end Arranger
