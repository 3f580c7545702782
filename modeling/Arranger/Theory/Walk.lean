import Arranger.Theory.Note

/-!
# Walks

A walk moves a note step by step.  A step that would leave the range of notes is skipped, and the
walk goes on from the note before it.
-/

namespace Arranger

inductive Move where
  | sharp
  | flat
  | halfSteps (count : Int)
  | wholeSteps (count : Int)
  | toOctave (octave : Int)
  deriving DecidableEq, Repr

def Move.apply (n : Note) : Move → Except TheoryError Note
  | sharp => n.sharp
  | flat => n.flat
  | halfSteps count => n.transpose count
  | wholeSteps count => n.addWholeSteps count
  | toOctave octave => n.withOctave octave

/-- What each move of a walk leads to. -/
def Note.walk (n : Note) : List Move → List (Except TheoryError Note)
  | [] => []
  | move :: rest => match move.apply n with
    | .ok next => .ok next :: walk next rest
    | .error e => .error e :: walk n rest

end Arranger
