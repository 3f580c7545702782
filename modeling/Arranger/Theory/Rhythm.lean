import Arranger.Theory.Error
import Arranger.Warning

/-!
# Rhythm

A duration is a number of beats.  The letters `W H Q E S` stand for a whole note of one beat and
for its successive halves.
-/

namespace Arranger

inductive Beat where
  | whole
  | half
  | quarter
  | eighth
  | sixteenth
  deriving DecidableEq, Repr

namespace Beat

def all : List Beat := [whole, half, quarter, eighth, sixteenth]

def name : Beat → String
  | whole => "WHOLE"
  | half => "HALF"
  | quarter => "QUARTER"
  | eighth => "EIGHTH"
  | sixteenth => "SIXTEENTH"

def letter : Beat → String
  | whole => "W"
  | half => "H"
  | quarter => "Q"
  | eighth => "E"
  | sixteenth => "S"

def value : Beat → Float
  | whole => 1.0
  | half => 0.5
  | quarter => 0.25
  | eighth => 0.125
  | sixteenth => 0.0625

def ofLetter? (letter : String) : Option Beat := all.find? (·.letter = letter)

def parse (letter : String) : Except TheoryError Beat :=
  match ofLetter? letter with
  | some beat => .ok beat
  | none => .error (.token (.durationLetter letter))

end Beat

/-- The duration of a letter; an unknown letter lasts no time and is warned of. -/
def letterDuration (letter : String) : List Warning × Float :=
  match Beat.ofLetter? letter with
  | some beat => ([], beat.value)
  | none => ([.durationLetter letter], 0.0)

def rhythm (letters : List String) : List Warning × List Float :=
  let durations := letters.map letterDuration
  (durations.flatMap (·.1), durations.map (·.2))

end Arranger
