/-!
# Pitch classes

The twelve tones of the chromatic scale, counted in half steps above C.  A pitch class is always
spelled with a flat; sharp spellings are read and respelled.
-/

namespace Arranger

abbrev PitchClass := Fin 12

/-- With one proof for all of them, numbers below 12 stand for pitch classes. -/
instance (priority := high) PitchClass.neZero : @NeZero Nat Zero.ofOfNat0 12 := ⟨by decide⟩

namespace PitchClass

def names : List String := ["C", "Db", "D", "Eb", "E", "F", "Gb", "G", "Ab", "A", "Bb", "B"]

def name (p : PitchClass) : String := names[p.val]?.getD ""

/-- The sharp spellings, with `#` or `s` for the sharp. -/
def sharpNames : List (String × PitchClass) := [
    ("C#", 1), ("Cs", 1), ("D#", 3), ("Ds", 3), ("F#", 6), ("Fs", 6), ("G#", 8), ("Gs", 8),
    ("A#", 10), ("As", 10)]

def all : List PitchClass := List.finRange 12

def ofFlatName? (text : String) : Option PitchClass := all.find? (·.name = text)

def ofName? (text : String) : Option PitchClass :=
  (ofFlatName? text).or (sharpNames.lookup text)

def ofInt? (i : Int) : Option PitchClass :=
  if h : 0 ≤ i ∧ i < 12 then some ⟨i.toNat, by omega⟩ else none

/-- Moves a pitch class by half steps, up or down, around the circle of twelve. -/
def transpose (p : PitchClass) (halfSteps : Int) : PitchClass :=
  ⟨((p.val + halfSteps) % 12).toNat, by omega⟩

theorem val_transpose (p : PitchClass) (halfSteps : Int) :
    ((p.transpose halfSteps).val : Int) = (p.val + halfSteps) % 12 := by
  simp only [transpose]
  omega

end PitchClass

end Arranger
