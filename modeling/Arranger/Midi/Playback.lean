import Arranger.Arrangement.Basic
import Arranger.Midi.Event

/-!
# Playback

A clip is played as a sequence of steps, each a group of pitches or a rest with its duration.  The
steps of a track follow one another: every step begins where its predecessor ends.  A sound file
has no steps and takes no time.
-/

namespace Arranger.Midi

variable {τ δ : Type}

abbrev Step (δ : Type) := Group × δ

/-- The event of a pitch between two ticks. -/
def eventBetween (channel : Int) (start stop : Int) (pitch : Pitch) : Except MidiError Event :=
  Event.new pitch.val start (stop - start) Event.defaultVelocity channel

/-- The events of a step and the position behind it. -/
def stepEvents (clock : Clock τ δ) (channel : Int) (position : τ) :
    Step δ → Except Fault (List Event × τ)
  | (none, duration) => do
      let next ← (clock.advance position duration).mapError .number
      return ([], next)
  | (some pitches, duration) => do
      let start ← (clock.ticks position).mapError .number
      let next ← (clock.advance position duration).mapError .number
      let stop ← (clock.ticks next).mapError .number
      let events ← (pitches.mapM (eventBetween channel start stop)).mapError .midi
      return (events, next)

/-- The events of steps from a position on, and the position behind them. -/
def walk (clock : Clock τ δ) (channel : Int) : τ → List (Step δ) → Except Fault (List Event × τ)
  | position, [] => .ok ([], position)
  | position, step :: rest => do
      let (events, next) ← stepEvents clock channel position step
      let (more, last) ← walk clock channel next rest
      return (events ++ more, last)

/-- The steps of a clip. -/
def clipSteps : Clip → Outcome (List (Step Float))
  | .empty c => .value [(none, c.duration)]
  | .file c => ⟨[.skippedFileClip c.name], .ok []⟩
  | .instrument c =>
      if c.lengthsAgree then .value (c.notes.zip c.durations)
      else .fail (.lengths c.name c.notes.length c.durations.length)

def clipEvents (clock : Clock τ Float) (channel : Int) (position : τ) (clip : Clip) :
    Outcome (List Event × τ) :=
  (clipSteps clip).andThen fun steps => .of (walk clock channel position steps)

/-- The events of the clips that a track refers to; a reference to no clip is passed over. -/
def referenceEvents (clock : Clock τ Float) (channel : Int) (a : Arrangement) (track : String) :
    τ → List Label → Outcome (List Event × τ)
  | position, [] => .value ([], position)
  | position, name :: rest =>
      match a.clip? name with
      | none => (Outcome.warn (.unknownClip track name)).andThen fun _ =>
          referenceEvents clock channel a track position rest
      | some clip => (clipEvents clock channel position clip).andThen fun (events, next) =>
          (referenceEvents clock channel a track next rest).andThen fun (more, last) =>
            .value (events ++ more, last)

/-! ## Walks piece by piece -/

theorem walk_nil (clock : Clock τ δ) (channel : Int) (position : τ) :
    walk clock channel position [] = .ok ([], position) := rfl

/-- Steps are walked piece by piece. -/
theorem walk_append (clock : Clock τ δ) (channel : Int) (position : τ) (s t : List (Step δ)) :
    walk clock channel position (s ++ t) = (do
      let (events, next) ← walk clock channel position s
      let (more, last) ← walk clock channel next t
      return (events ++ more, last)) := by
  induction s generalizing position with
  | nil =>
      simp only [List.nil_append, walk_nil, bind, Except.bind, pure, Except.pure]
      cases walk clock channel position t <;> rfl
  | cons step rest ih =>
      simp only [List.cons_append, walk, ih, bind, Except.bind, pure, Except.pure]
      cases stepEvents clock channel position step with
      | error e => rfl
      | ok first =>
          cases hrest : walk clock channel first.2 rest with
          | error e => simp [hrest]
          | ok second =>
              cases hlast : walk clock channel second.2 t with
              | error e => simp [hrest, hlast]
              | ok third => simp [hrest, hlast]

end Arranger.Midi
