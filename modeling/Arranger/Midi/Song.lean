import Arranger.Midi.Message
import Arranger.Midi.Playback

/-!
# Songs

An arrangement is rendered to tracks of messages: one for the tempo, and then one for each of its
tracks, all of which begin together.  The tracks take the sixteen channels in turn.
-/

namespace Arranger.Midi

structure Song where
  ticksPerBeat : Int
  tracks : List (List Timed)

def defaultTicksPerBeat : Int := 480

def defaultTempo : Int := 60

def microsecondsPerMinute : Nat := 60000000

/-- A minute divided by the beats in it. -/
def beatMicroseconds : Decimal.Number → Except NumberError Float
  | .whole n =>
      if n = 0 then .error .zeroDivisor
      else .ok (Decimal.ofQuotient (n < 0) microsecondsPerMinute n.natAbs)
  | .real x =>
      if x == 0.0 then .error .zeroRealDivisor
      else .ok (60000000.0 / x)

/-- The tempo message for a number of beats a minute. -/
def tempoMessage (beatsPerMinute : Decimal.Number) : Except Fault Message := do
  let value ← (beatMicroseconds beatsPerMinute >>= Decimal.truncate).mapError .number
  if h : 0 ≤ value ∧ value < 0x1000000 then return .tempo ⟨value.toNat, by omega⟩
  else .error (.midi .tempo)

def tempoTrack (message : Message) : List Timed := [⟨0, message⟩, ⟨0, .endOfTrack⟩]

/-- The channel of a track. -/
def channelOf (index : Nat) : Int := (index % 16 : Nat)

def startPosition : Decimal.Number := .real 0.0

def trackMessages (ticksPerBeat : Int) (a : Arrangement) (index : Nat) (t : Track) :
    Outcome (List Timed) :=
  (referenceEvents (beatClock ticksPerBeat) (channelOf index) a t.name startPosition
    t.clips).andThen fun (events, _) => .value (track t.name events)

def allTracks (ticksPerBeat : Int) (a : Arrangement) :
    Nat → List Track → Outcome (List (List Timed))
  | _, [] => .value []
  | index, t :: rest =>
      (trackMessages ticksPerBeat a index t).andThen fun messages =>
        (allTracks ticksPerBeat a (index + 1) rest).andThen fun more => .value (messages :: more)

/-- Renders an arrangement. -/
def render (a : Arrangement) (beatsPerMinute : Decimal.Number) (ticksPerBeat : Int) :
    Outcome Song :=
  (Outcome.of (tempoMessage beatsPerMinute)).andThen fun message =>
    (allTracks ticksPerBeat a 0 a.tracks).andThen fun tracks =>
      .value ⟨ticksPerBeat, tempoTrack message :: tracks⟩

def isNoteOn : Message → Bool
  | .noteOn _ _ _ => true
  | _ => false

/-- The number of notes that begin in a song. -/
def Song.noteCount (s : Song) : Nat :=
  s.tracks.flatten.countP fun m => isNoteOn m.message

end Arranger.Midi
