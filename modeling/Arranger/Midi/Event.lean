import Arranger.Decimal.Number
import Arranger.Fault
import Arranger.Theory.Note

/-!
# Note events

An event is a note that sounds on a channel for a span of ticks.  A clock turns positions in a
track into ticks; positions are counted in beats, and a beat has a number of ticks.
-/

namespace Arranger.Midi

/-- One of the sixteen channels. -/
abbrev Channel := Fin 16

/-- A value of seven bits. -/
abbrev Velocity := Fin 128

structure Event where
  pitch : Pitch
  start : Nat
  duration : Nat
  velocity : Velocity
  channel : Channel
  deriving DecidableEq

namespace Event

def defaultVelocity : Int := 100

/-- An event of the given values, each of which must lie in its range. -/
def new (pitch start duration velocity channel : Int) : Except MidiError Event :=
  if hpitch : 0 ≤ pitch ∧ pitch < 128 then
    if hvelocity : 0 ≤ velocity ∧ velocity < 128 then
      if hchannel : 0 ≤ channel ∧ channel < 16 then
        if start < 0 then .error (.start start)
        else if duration < 0 then .error (.duration duration)
        else .ok
          { pitch := ⟨pitch.toNat, by omega⟩
            start := start.toNat
            duration := duration.toNat
            velocity := ⟨velocity.toNat, by omega⟩
            channel := ⟨channel.toNat, by omega⟩ }
      else .error (.channel channel)
    else .error (.velocity velocity)
  else .error (.pitch pitch)

def stop (e : Event) : Nat := e.start + e.duration

end Event

/-! ## Clocks -/

/-- How positions advance by durations, and the tick of a position. -/
structure Clock (τ δ : Type) where
  advance : τ → δ → Except NumberError τ
  ticks : τ → Except NumberError Int

/-- The tick of a position in beats. -/
def ticksAt (ticksPerBeat : Int) : Decimal.Number → Except NumberError Int
  | .whole n => .ok (n * ticksPerBeat)
  | .real x => match Decimal.ofInteger? ticksPerBeat with
    | none => .error .tooLarge
    | some size => Decimal.nearestWhole (x * size)

/-- Positions in beats, with floating durations. -/
def beatClock (ticksPerBeat : Int) : Clock Decimal.Number Float where
  advance position duration := match position.add? duration with
    | some next => .ok next
    | none => .error .tooLarge
  ticks := ticksAt ticksPerBeat

end Arranger.Midi
