import Arranger.Text.Letter
import Arranger.Theory.Scale

/-!
# Chords

A chord type lists numerals; a chord resolves them in the major scale on its root.  An inversion
starts the voicing on a later numeral and goes around the list.
-/

namespace Arranger

inductive ChordType where
  | majorSeventh
  | minorSeventh
  | dominantSeventh
  | diminished
  | augmented
  | majorSixth
  deriving DecidableEq, Repr

namespace ChordType

def all : List ChordType :=
  [majorSeventh, minorSeventh, dominantSeventh, diminished, augmented, majorSixth]

def name : ChordType → String
  | majorSeventh => "Maj7"
  | minorSeventh => "Min7"
  | dominantSeventh => "Dom7"
  | diminished => "Dim"
  | augmented => "Aug"
  | majorSixth => "Maj6"

def formula : ChordType → List Numeral
  | majorSeventh => [⟨1, .natural, by decide⟩, ⟨3, .natural, by decide⟩, ⟨5, .natural, by decide⟩,
      ⟨7, .natural, by decide⟩]
  | minorSeventh => [⟨1, .natural, by decide⟩, ⟨3, .flat, by decide⟩, ⟨5, .natural, by decide⟩,
      ⟨7, .flat, by decide⟩]
  | dominantSeventh => [⟨1, .natural, by decide⟩, ⟨3, .natural, by decide⟩,
      ⟨5, .natural, by decide⟩, ⟨7, .flat, by decide⟩]
  | diminished => [⟨1, .natural, by decide⟩, ⟨3, .flat, by decide⟩, ⟨5, .flat, by decide⟩]
  | augmented => [⟨1, .natural, by decide⟩, ⟨3, .natural, by decide⟩, ⟨5, .sharp, by decide⟩]
  | majorSixth => [⟨1, .natural, by decide⟩, ⟨3, .natural, by decide⟩, ⟨5, .natural, by decide⟩,
      ⟨6, .natural, by decide⟩]

def ofChars? (name : List Char) : Option ChordType :=
  all.find? fun t => Text.lowered t.name.toList = Text.lowered (Text.strip name)

/-- Reads a chord type in letters of either case, perhaps between blanks. -/
def parse (name : String) : Except TheoryError ChordType :=
  match ofChars? name.toList with
  | some t => .ok t
  | none => .error (.token (.chordType name))

/-- The chord type with exactly this name. -/
def named (name : String) : Except TheoryError ChordType :=
  match all.find? (·.name = name) with
  | some t => .ok t
  | none => .error (.value (.chordType name))

end ChordType

structure Chord where
  root : Note
  type : ChordType
  deriving DecidableEq

namespace Chord

/-- The major scale on the root, in which the numerals are resolved. -/
def referenceScale (c : Chord) : Scale := ⟨c.root, .major⟩

def formula (c : Chord) : List Numeral := c.type.formula

def voicing (c : Chord) (inversion : Int) : Except TheoryError (List Note) :=
  let size := c.formula.length
  if 0 ≤ inversion && inversion < size then
    c.referenceScale.voicing (c.formula.rotateLeft inversion.toNat)
  else .error (.range (.inversion (size - 1) c.type.name inversion))

/-- The pitches of the root position. -/
def play (c : Chord) : Except TheoryError (List Pitch) :=
  return (← c.voicing 0).map Note.midi

/-- How many characters of a chord token belong to its note: three if an accidental and a digit
follow the first character, and two otherwise. -/
def noteLength : List Char → Nat
  | _ :: accidental :: octave :: _ =>
      if (accidental = 's' || accidental = 'b') && Text.isDigit octave then 3 else 2
  | _ => 2

/-- Reads a note token followed by a chord type. -/
def parse (token : String) : Except TheoryError Chord :=
  let stripped := Text.strip token.toList
  let size := noteLength stripped
  let note := String.ofList (stripped.take size)
  let type := String.ofList (stripped.drop size)
  if type.isEmpty then .error (.token (.chordTypeMissing (String.ofList stripped)))
  else do
    let root ← Note.parse note
    let type ← ChordType.parse type
    return ⟨root, type⟩

def text (c : Chord) : String := c.root.name ++ c.type.name

end Chord

end Arranger
