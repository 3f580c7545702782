import Arranger.Proofs.Midi.Playback
import Arranger.Proofs.Midi.Spans

/-!
# The score of an arrangement

The score has for every track its name and its steps.  A song is made of the score alone: how the
steps are divided into clips, and what else is in the pool, is not heard.
-/

namespace Arranger

open Midi

/-- The name of a track and its steps, if its clips have steps. -/
abbrev Part := String × Option (List (Step Float))

namespace Arrangement

def part (a : Arrangement) (t : Track) : Part := (t.name, a.steps? t.clips)

def score (a : Arrangement) : List Part := a.tracks.map a.part

end Arrangement

namespace Midi

variable {a b : Arrangement} {ticksPerBeat : Int} {beatsPerMinute : Decimal.Number} {song : Song}

/-- The messages of the part at an index: those of its steps, which follow one another from the
beat zero on. -/
def IsRendered (ticksPerBeat : Int) (index : Nat) (part : Part) (messages : List Timed) : Prop :=
  ∃ steps pieces, part.2 = some steps ∧
    List.Forall₂ (Sounds ticksPerBeat (index % 16)) (spans 0.0 steps) pieces ∧
      messages = track part.1 pieces.flatten

/-- The messages of parts from an index on. -/
abbrev AreRendered (ticksPerBeat : Int) (index : Nat) (parts : List Part)
    (tracks : List (List Timed)) : Prop :=
  List.Forall₂ (fun part messages => IsRendered ticksPerBeat part.2 part.1 messages)
    (parts.zipIdx index) tracks

theorem result_trackMessages_eq_ok_iff {index : Nat} {t : Track} {messages : List Timed} :
    (trackMessages ticksPerBeat a index t).result = .ok messages ↔
      IsRendered ticksPerBeat index (a.part t) messages := by
  simp only [trackMessages, channelOf, startPosition, Outcome.result_andThen_eq_ok_iff,
    result_referenceEvents_eq_ok_iff, Outcome.value, Except.ok.injEq, Prod.exists, walk_eq_ok_iff,
    IsRendered, Arrangement.part]
  constructor
  · rintro ⟨_, _, ⟨steps, hsteps, ⟨pieces, hpieces, rfl⟩, rfl⟩, rfl⟩
    exact ⟨steps, pieces, hsteps, hpieces, rfl⟩
  · rintro ⟨steps, pieces, hsteps, hpieces, rfl⟩
    exact ⟨_, _, ⟨steps, hsteps, ⟨pieces, hpieces, rfl⟩, rfl⟩, rfl⟩

theorem result_allTracks_eq_ok_iff {index : Nat} {ts : List Track} {tracks : List (List Timed)} :
    (allTracks ticksPerBeat a index ts).result = .ok tracks ↔
      AreRendered ticksPerBeat index (ts.map a.part) tracks := by
  induction ts generalizing index tracks with
  | nil => simp [allTracks, AreRendered, Outcome.value, eq_comm]
  | cons t rest ih =>
      simp only [allTracks, Outcome.result_andThen_eq_ok_iff, result_trackMessages_eq_ok_iff, ih,
        Outcome.value, Except.ok.injEq, AreRendered, List.map_cons, List.zipIdx_cons,
        List.forall₂_cons_left_iff]
      constructor
      · rintro ⟨messages, hmessages, more, hmore, rfl⟩
        exact ⟨messages, more, hmessages, hmore, rfl⟩
      · rintro ⟨messages, more, hmessages, hmore, rfl⟩
        exact ⟨messages, hmessages, more, hmore, rfl⟩

/-- A song has a track for the tempo, and one for each part of the score. -/
theorem result_render_eq_ok_iff :
    (render a beatsPerMinute ticksPerBeat).result = .ok song ↔
      ∃ message tracks, tempoMessage beatsPerMinute = .ok message ∧
        AreRendered ticksPerBeat 0 a.score tracks ∧
          song = ⟨ticksPerBeat, tempoTrack message :: tracks⟩ := by
  simp only [render, Outcome.result_andThen_eq_ok_iff, result_allTracks_eq_ok_iff, Outcome.of,
    Outcome.value, Except.ok.injEq]
  constructor
  · rintro ⟨message, hmessage, tracks, htracks, rfl⟩
    exact ⟨message, tracks, hmessage, htracks, rfl⟩
  · rintro ⟨message, tracks, hmessage, htracks, rfl⟩
    exact ⟨message, hmessage, tracks, htracks, rfl⟩

/-- Arrangements of one score are rendered to one song. -/
theorem result_render_of_score_eq (hscore : b.score = a.score)
    (h : (render a beatsPerMinute ticksPerBeat).result = .ok song) :
    (render b beatsPerMinute ticksPerBeat).result = .ok song := by
  rw [result_render_eq_ok_iff] at h ⊢
  rwa [hscore]

theorem AreRendered.length_eq {index : Nat} {parts : List Part} {tracks : List (List Timed)}
    (h : AreRendered ticksPerBeat index parts tracks) : tracks.length = parts.length := by
  have hlength := List.Forall₂.length_eq h
  rw [List.length_zipIdx] at hlength
  exact hlength.symm

theorem AreRendered.getElem? {parts : List Part} {tracks : List (List Timed)} {index k : Nat}
    {part : Part} (h : AreRendered ticksPerBeat index parts tracks) (hpart : parts[k]? = some part) :
    ∃ messages, tracks[k]? = some messages ∧ IsRendered ticksPerBeat (index + k) part messages := by
  induction parts generalizing index tracks k with
  | nil => simp at hpart
  | cons first rest ih =>
      simp only [AreRendered, List.zipIdx_cons, List.forall₂_cons_left_iff] at h
      obtain ⟨messages, more, hmessages, hmore, rfl⟩ := h
      cases k with
      | zero =>
          obtain rfl : first = part := by simpa using hpart
          exact ⟨messages, rfl, hmessages⟩
      | succ k =>
          obtain ⟨messages', hmessages', hrendered⟩ := ih hmore (by simpa using hpart)
          exact ⟨messages', by simpa using hmessages', by rwa [Nat.add_right_comm] at hrendered⟩

end Midi

end Arranger
