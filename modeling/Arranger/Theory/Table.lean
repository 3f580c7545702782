import Arranger.Theory.Walk

/-!
# Tables of notes

Two tables are built once: the notes in the order of their MIDI numbers, and the number of each
note.  A note is moved by looking up its number in the one and the note of the new number in the
other.  Looking up what a table does not hold gives nothing.
-/

namespace Arranger

/-! ## Hashes -/

namespace Hash

def modulus : Nat := Nat.pow 2 61 - 1

/-- The hash of a whole number is its remainder by a prime, with the sign of the number.  The word
-1 would stand for a failure and is passed over. -/
def ofWhole (value : Int) : UInt64 :=
  let remainder := value.tmod modulus
  if remainder = -1 then .ofInt (-2) else .ofInt remainder

def seed : UInt64 := 2870177450012600261

def partFactor : UInt64 := 14029467366897019727

def sumFactor : UInt64 := 11400714785074694791

/-- Mixes the hash of one more part into that of the parts in front of it. -/
def mix (mixed part : UInt64) : UInt64 :=
  let sum := mixed + part * partFactor
  (sum <<< 31 ||| sum >>> 33) * sumFactor

/-- The hash of several parts in order. -/
def ofParts (parts : List UInt64) : UInt64 :=
  let mixed := parts.foldl mix seed + (parts.length.toUInt64 ^^^ (seed ^^^ 3527539))
  if mixed = -1 then 1546275796 else mixed

end Hash

instance : Hashable Note :=
  ⟨fun n => Hash.ofParts [Hash.ofWhole n.pitchClass.val, Hash.ofWhole n.octave]⟩

/-! ## Lookups -/

structure MidiTable where
  notes : List Note
  /-- The notes with their numbers.  The first entry of a note counts. -/
  numbers : List (Note × Nat)

namespace MidiTable

/-- The note that belongs at a place, with its range checked. -/
def noteAt (number : Nat) : Except TheoryError Note :=
  Note.new ⟨number % 12, by omega⟩ (number / 12 - 1)

/-- Each note is entered with its place, in front of the notes that were entered before. -/
def build : Except TheoryError MidiTable := do
  let notes ← (List.range 128).mapM noteAt
  return ⟨notes, notes.zipIdx.reverse⟩

/-- The number of a note, which is looked for by hash and then by equality. -/
def midi? (t : MidiTable) (n : Note) : Option Nat :=
  (t.numbers.find? fun entry => hash entry.1 == hash n && entry.1 == n).map (·.2)

def ofMidi? (t : MidiTable) (value : Int) : Option (Except TheoryError Note) :=
  if 0 ≤ value ∧ value < 128 then t.notes[value.toNat]?.map .ok
  else some (.error (.range (.midi value)))

def transpose? (t : MidiTable) (n : Note) (halfSteps : Int) : Option (Except TheoryError Note) := do
  let number ← t.midi? n
  t.ofMidi? (number + halfSteps)

def move? (t : MidiTable) (n : Note) : Move → Option (Except TheoryError Note)
  | .sharp => t.transpose? n 1
  | .flat => t.transpose? n (-1)
  | .halfSteps count => t.transpose? n count
  | .wholeSteps count => t.transpose? n (count * 2)
  | .toOctave octave => some (n.withOctave octave)

/-- What each move of a walk leads to; nothing as soon as a lookup fails. -/
def walk? (t : MidiTable) (n : Note) : List Move → Option (List (Except TheoryError Note))
  | [] => some []
  | move :: rest => do
      match ← t.move? n move with
      | .ok next => return .ok next :: (← t.walk? next rest)
      | .error e => return .error e :: (← t.walk? n rest)

end MidiTable

end Arranger
