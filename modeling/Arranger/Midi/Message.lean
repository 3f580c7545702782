import Arranger.Midi.Event

/-!
# Messages

A MIDI track is a sequence of messages, each with the ticks since its predecessor.  An event gives
two messages, one for the beginning of its note and one for the end; at one tick the ends come
first, so that a repeated note is struck anew.
-/

namespace Arranger.Midi

/-- Microseconds a beat, in three bytes. -/
abbrev Tempo := Fin 0x1000000

inductive Message where
  | noteOn (channel : Channel) (pitch : Pitch) (velocity : Velocity)
  | noteOff (channel : Channel) (pitch : Pitch) (velocity : Velocity)
  | tempo (value : Tempo)
  | trackName (name : String)
  | endOfTrack
  deriving DecidableEq

/-- A message and the ticks since its predecessor. -/
structure Timed where
  delta : Nat
  message : Message
  deriving DecidableEq

/-- A note message at a tick. -/
structure Placed where
  tick : Nat
  isOn : Bool
  message : Message
  deriving DecidableEq

namespace Placed

def on (e : Event) : Placed := ⟨e.start, true, .noteOn e.channel e.pitch e.velocity⟩

def off (e : Event) : Placed := ⟨e.stop, false, .noteOff e.channel e.pitch 0⟩

/-- Earlier messages first, and at one tick the ends of notes before the beginnings. -/
def precedes (a b : Placed) : Bool :=
  a.tick < b.tick || (a.tick = b.tick && (!a.isOn || b.isOn))

end Placed

/-- The note messages of events in the order of events. -/
def placed (events : List Event) : List Placed :=
  events.flatMap fun e => [.on e, .off e]

/-- The note messages of events in the order of their ticks. -/
def sorted (events : List Event) : List Placed := (placed events).mergeSort Placed.precedes

/-- Replaces the ticks of messages by the ticks since the predecessor. -/
def deltas : Nat → List Placed → List Timed
  | _, [] => []
  | now, p :: rest => ⟨p.tick - now, p.message⟩ :: deltas p.tick rest

def nameMessages (name : String) : List Timed :=
  if name.isEmpty then [] else [⟨0, .trackName name⟩]

/-- The messages of a track: its name if it has one, the notes, and the end. -/
def track (name : String) (events : List Event) : List Timed :=
  nameMessages name ++ deltas 0 (sorted events) ++ [⟨0, .endOfTrack⟩]

end Arranger.Midi
