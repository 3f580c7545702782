import Arranger.Midi.Song
import Arranger.Proofs.Results

/-!
# Steps in time

Steps that follow one another each take a span of beats.  The events of a step are those of its
pitches, from the tick of the beat where the span begins to the tick of the beat where it ends.
-/

namespace Arranger.Midi

variable {ticksPerBeat : Int} {channel : Nat} {events : List Event}

/-- A step and the beats between which it is played. -/
structure Span where
  group : Group
  start : Float
  stop : Float

/-- The spans of steps from a beat on. -/
def spans : Float → List (Step Float) → List Span
  | _, [] => []
  | beat, (group, duration) :: rest =>
      ⟨group, beat, beat + duration⟩ :: spans (beat + duration) rest

/-- The beat behind steps from a beat on. -/
def beatAfter (beat : Float) (steps : List (Step Float)) : Float :=
  steps.foldl (fun beat step => beat + step.2) beat

/-- The event is the note of a pitch between two ticks, struck as every note is. -/
structure Event.Plays (e : Event) (channel : Nat) (start stop : Int) (pitch : Pitch) : Prop where
  pitch_eq : e.pitch = pitch
  start_eq : (e.start : Int) = start
  stop_eq : (e.stop : Int) = stop
  velocity_eq : e.velocity = 100
  channel_eq : e.channel.val = channel

/-- The events of a span: none of a rest, and otherwise one of each pitch. -/
inductive Sounds (ticksPerBeat : Int) (channel : Nat) : Span → List Event → Prop
  | rest {start stop : Float} : Sounds ticksPerBeat channel ⟨none, start, stop⟩ []
  | notes {pitches : List Pitch} {start stop : Float} {first last : Int} {events : List Event}
      (hstart : ticksAt ticksPerBeat (.real start) = .ok first)
      (hstop : ticksAt ticksPerBeat (.real stop) = .ok last)
      (hevents : List.Forall₂ (fun pitch e => e.Plays channel first last pitch) pitches events) :
      Sounds ticksPerBeat channel ⟨some pitches, start, stop⟩ events

theorem Event.new_eq_ok_iff {pitch start duration velocity channel : Int} {e : Event} :
    Event.new pitch start duration velocity channel = .ok e ↔
      (e.pitch.val : Int) = pitch ∧ (e.start : Int) = start ∧ (e.duration : Int) = duration ∧
        (e.velocity.val : Int) = velocity ∧ (e.channel.val : Int) = channel := by
  unfold Event.new
  constructor
  · intro h
    split_ifs at h
    cases h
    refine ⟨?_, ?_, ?_, ?_, ?_⟩ <;> dsimp only <;> omega
  · rintro ⟨rfl, rfl, rfl, rfl, rfl⟩
    have hpitch : 0 ≤ (e.pitch.val : Int) ∧ (e.pitch.val : Int) < 128 := by omega
    have hvelocity : 0 ≤ (e.velocity.val : Int) ∧ (e.velocity.val : Int) < 128 := by omega
    have hchannel : 0 ≤ (e.channel.val : Int) ∧ (e.channel.val : Int) < 16 := by omega
    have hstart : ¬ (e.start : Int) < 0 := by omega
    have hduration : ¬ (e.duration : Int) < 0 := by omega
    simp [hpitch, hvelocity, hchannel, hstart, hduration]

theorem eventBetween_eq_ok_iff {start stop : Int} {pitch : Pitch} {e : Event} :
    eventBetween channel start stop pitch = .ok e ↔ e.Plays channel start stop pitch := by
  rw [eventBetween, Event.new_eq_ok_iff]
  constructor
  · rintro ⟨hpitch, hstart, hduration, hvelocity, hchannel⟩
    have hdefault : e.velocity.val = 100 := by simp only [Event.defaultVelocity] at hvelocity; omega
    exact
      { pitch_eq := Fin.ext (by omega)
        start_eq := hstart
        stop_eq := by simp only [Event.stop]; omega
        velocity_eq := Fin.ext hdefault
        channel_eq := by omega }
  · rintro ⟨rfl, hstart, hstop, hvelocity, hchannel⟩
    simp only [Event.stop] at hstop
    exact ⟨rfl, hstart, by omega, by rw [hvelocity]; rfl, by omega⟩

/-- A step is played in the span from its beat on. -/
theorem stepEvents_eq_ok_iff {beat : Float} {step : Step Float} {next : Decimal.Number} :
    stepEvents (beatClock ticksPerBeat) channel (.real beat) step = .ok (events, next) ↔
      Sounds ticksPerBeat channel ⟨step.1, beat, beat + step.2⟩ events ∧
        next = .real (beat + step.2) := by
  obtain ⟨group, duration⟩ := step
  cases group with
  | none =>
      simp only [stepEvents, beatClock, Decimal.Number.add?, bind_eq_ok_iff, mapError_eq_ok_iff,
        pure, Except.pure, Except.ok.injEq, exists_eq_left', Prod.mk.injEq]
      constructor
      · rintro ⟨rfl, rfl⟩
        exact ⟨.rest, rfl⟩
      · rintro ⟨hsounds, rfl⟩
        cases hsounds
        exact ⟨rfl, rfl⟩
  | some pitches =>
      simp only [stepEvents, beatClock, Decimal.Number.add?, bind_eq_ok_iff, mapError_eq_ok_iff,
        mapM_eq_ok_iff, eventBetween_eq_ok_iff, pure, Except.pure, Except.ok.injEq,
        exists_eq_left', Prod.mk.injEq]
      constructor
      · rintro ⟨first, hfirst, last, hlast, _, hplays, rfl, rfl⟩
        exact ⟨.notes hfirst hlast hplays, rfl⟩
      · rintro ⟨hsounds, rfl⟩
        cases hsounds with
        | notes hfirst hlast hplays => exact ⟨_, hfirst, _, hlast, _, hplays, rfl, rfl⟩

/-- The events of a walk are those of the spans of its steps. -/
theorem walk_eq_ok_iff {beat : Float} {steps : List (Step Float)} {last : Decimal.Number} :
    walk (beatClock ticksPerBeat) channel (.real beat) steps = .ok (events, last) ↔
      (∃ pieces, List.Forall₂ (Sounds ticksPerBeat channel) (spans beat steps) pieces ∧
        events = pieces.flatten) ∧ last = .real (beatAfter beat steps) := by
  induction steps generalizing beat events with
  | nil => simp [walk, spans, beatAfter, eq_comm]
  | cons step rest ih =>
      obtain ⟨group, duration⟩ := step
      simp only [walk, bind_eq_ok_iff, pure, Except.pure, Except.ok.injEq, Prod.exists,
        Prod.mk.injEq, stepEvents_eq_ok_iff, spans, List.forall₂_cons_left_iff]
      constructor
      · rintro ⟨first, _, ⟨hfirst, rfl⟩, more, _, hmore, rfl, rfl⟩
        obtain ⟨⟨pieces, hpieces, rfl⟩, rfl⟩ := ih.1 hmore
        exact ⟨⟨first :: pieces, ⟨first, pieces, hfirst, hpieces, rfl⟩, rfl⟩, rfl⟩
      · rintro ⟨⟨_, ⟨first, pieces, hfirst, hpieces, rfl⟩, rfl⟩, rfl⟩
        have hmore := ih.2 ⟨⟨pieces, hpieces, rfl⟩, rfl⟩
        exact ⟨first, _, ⟨hfirst, rfl⟩, pieces.flatten, _, hmore, rfl, rfl⟩

end Arranger.Midi
