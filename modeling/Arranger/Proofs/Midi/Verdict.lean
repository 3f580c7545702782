import Arranger.Proofs.Diagnostics.Validity
import Arranger.Proofs.Midi.Score
import Arranger.Proofs.Midi.Ticks

/-!
# What a valid arrangement is rendered to

The durations of a valid arrangement are not negative, so that the ticks of a track do not fall and
an event ends no earlier than it begins.  What is left to fail is the tick of a beat that is not
finite: a duration can be undefined or infinite, and a sum or a product can overflow.
-/

namespace Arranger

open Decimal (IsUnsigned)

variable {a : Arrangement}

/-! ## Durations -/

theorem isUnsigned_of_isNonPositive_eq_false {d : Float} (h : isNonPositive d = false) :
    IsUnsigned d :=
  Decimal.isUnsigned_of_not_le (of_decide_eq_false h)

theorem isUnsigned_zero : IsUnsigned 0.0 := .finite ⟨_, _, rfl, rfl⟩

/-- The steps of a playable clip have no duration that is zero or negative. -/
theorem Clip.IsPlayable.exists_steps {c : Clip} (h : c.IsPlayable) :
    ∃ steps, c.steps? = some steps ∧ ∀ step ∈ steps, isNonPositive step.2 = false := by
  have hlengths : c.HasLengths := by
    rintro d rfl
    exact h.1
  have hdurations : ∀ d ∈ c.durations, isNonPositive d = false := by
    cases c with
    | instrument c => exact h.2
    | empty c => exact List.forall_mem_singleton.2 h
    | file c => exact fun d hd => absurd hd List.not_mem_nil
  exact hlengths.exists_steps (P := (isNonPositive · = false)) hdurations

theorem Arrangement.exists_steps (h : ∀ c ∈ a.clips, c.IsPlayable) (refs : List Label) :
    ∃ steps, a.steps? refs = some steps ∧ ∀ step ∈ steps, isNonPositive step.2 = false :=
  exists_steps_of_clips (P := (isNonPositive · = false)) (fun c hc => (h c hc).exists_steps) refs

namespace Midi

/-! ## Ticks -/

/-- If a step has a tick at its end then it has one at its beginning, which is not a later one. -/
theorem exists_ticks_of_add {beat duration : Float} {last : Int} (hbeat : IsUnsigned beat)
    (hduration : IsUnsigned duration)
    (hlast : ticksAt defaultTicksPerBeat (.real (beat + duration)) = .ok last) :
    ∃ first stop : Nat, ticksAt defaultTicksPerBeat (.real beat) = .ok first ∧ last = stop ∧
      first ≤ stop := by
  have hupTo : IsUpTo beat (beat + duration) := fun _ hsum => hsum.of_add hbeat hduration
  obtain ⟨s, hs, hnonneg, hle⟩ :=
    exists_ticks_of_isUpTo (by decide) (hbeat.add hduration) hupTo hlast
  obtain ⟨first, rfl⟩ := Int.eq_ofNat_of_zero_le hnonneg
  obtain ⟨stop, rfl⟩ := Int.eq_ofNat_of_zero_le (hnonneg.trans hle)
  exact ⟨first, stop, hs, rfl, Int.ofNat_le.1 hle⟩

/-! ## Spans -/

/-- The spans of steps whose durations are not negative. -/
theorem exists_of_mem_spans {beat : Float} {steps : List (Step Float)} {span : Span}
    (hbeat : IsUnsigned beat) (hsteps : ∀ step ∈ steps, isNonPositive step.2 = false)
    (hspan : span ∈ spans beat steps) :
    IsUnsigned span.start ∧ ∃ duration, IsUnsigned duration ∧ span.stop = span.start + duration := by
  induction steps generalizing beat with
  | nil => cases hspan
  | cons step rest ih =>
      obtain ⟨group, duration⟩ := step
      rw [List.forall_mem_cons] at hsteps
      have hduration := isUnsigned_of_isNonPositive_eq_false hsteps.1
      rcases List.mem_cons.1 hspan with rfl | hspan
      · exact ⟨hbeat, duration, hduration, rfl⟩
      · exact ih (hbeat.add hduration) hsteps.2 hspan

theorem exists_plays {channel : Nat} (hchannel : channel < 16) {first stop : Nat}
    (hle : first ≤ stop) (pitch : Pitch) :
    ∃ e : Event, e.Plays channel first stop pitch :=
  ⟨⟨pitch, first, stop - first, 100, ⟨channel, hchannel⟩⟩, rfl, rfl, by
    simp only [Event.stop]; omega, rfl, rfl⟩

/-- A rest always sounds, and notes do if their end has a tick. -/
theorem exists_sounds_iff {channel : Nat} (hchannel : channel < 16) {span : Span}
    (hstart : IsUnsigned span.start)
    (hstop : ∃ duration, IsUnsigned duration ∧ span.stop = span.start + duration) :
    (∃ events, Sounds defaultTicksPerBeat channel span events) ↔
      (span.group ≠ none → ∃ tick, ticksAt defaultTicksPerBeat (.real span.stop) = .ok tick) := by
  obtain ⟨group, start, stop⟩ := span
  obtain ⟨duration, hduration, hsum⟩ := hstop
  dsimp only at hstart hsum ⊢
  constructor
  · rintro ⟨events, hsounds⟩ hgroup
    cases hsounds with
    | rest => exact absurd rfl hgroup
    | notes hfirst hlast hevents => exact ⟨_, hlast⟩
  · intro htick
    cases group with
    | none => exact ⟨[], .rest⟩
    | some pitches =>
        obtain ⟨tick, htick⟩ := htick (by simp)
        rw [hsum] at htick
        obtain ⟨first, last, hfirst, rfl, hle⟩ := exists_ticks_of_add hstart hduration htick
        obtain ⟨events, hevents⟩ :=
          exists_forall₂_iff.2 fun pitch (_ : pitch ∈ pitches) => exists_plays hchannel hle pitch
        rw [hsum]
        exact ⟨events, .notes hfirst htick hevents⟩

/-! ## Songs -/

theorem exists_isRendered_iff {index : Nat} {part : Part} {steps : List (Step Float)}
    (hpart : part.2 = some steps) (hsteps : ∀ step ∈ steps, isNonPositive step.2 = false) :
    (∃ messages, IsRendered defaultTicksPerBeat index part messages) ↔
      ∀ span ∈ spans 0.0 steps, span.group ≠ none →
        ∃ tick, ticksAt defaultTicksPerBeat (.real span.stop) = .ok tick := by
  have hspan : ∀ span ∈ spans 0.0 steps,
      (∃ events, Sounds defaultTicksPerBeat (index % 16) span events) ↔
        (span.group ≠ none →
          ∃ tick, ticksAt defaultTicksPerBeat (.real span.stop) = .ok tick) := by
    intro span hspan
    obtain ⟨hstart, hstop⟩ := exists_of_mem_spans isUnsigned_zero hsteps hspan
    exact exists_sounds_iff (Nat.mod_lt _ (by decide)) hstart hstop
  rw [← forall₂_congr hspan, ← exists_forall₂_iff]
  constructor
  · rintro ⟨messages, found, pieces, hfound, hpieces, -⟩
    rw [hpart, Option.some.injEq] at hfound
    subst hfound
    exact ⟨pieces, hpieces⟩
  · rintro ⟨pieces, hpieces⟩
    exact ⟨_, steps, pieces, hpart, hpieces, rfl⟩

theorem exists_tempoMessage :
    ∃ message, tempoMessage (.whole defaultTempo) = .ok message := ⟨_, rfl⟩

/-- A valid arrangement is rendered if the end of every note has a tick, and only then. -/
theorem exists_render_iff_of_isValid (hvalid : a.report.isValid = true) :
    (∃ song, (render a (.whole defaultTempo) defaultTicksPerBeat).result = .ok song) ↔
      ∀ t ∈ a.tracks, ∀ steps, a.steps? t.clips = some steps →
        ∀ span ∈ spans 0.0 steps, span.group ≠ none →
          ∃ tick, ticksAt defaultTicksPerBeat (.real span.stop) = .ok tick := by
  have hclips := isValid_iff.1 hvalid
  obtain ⟨message, hmessage⟩ := exists_tempoMessage
  constructor
  · -- the track has its place in the song, with the messages of its own steps
    rintro ⟨song, hsong⟩ t ht steps hsteps
    obtain ⟨_, tracks, -, htracks, -⟩ := result_render_eq_ok_iff.1 hsong
    obtain ⟨k, hk⟩ := List.getElem?_of_mem (List.mem_map_of_mem (f := a.part) ht)
    obtain ⟨messages, -, hrendered⟩ := htracks.getElem? hk
    obtain ⟨found, hfound, hdurations⟩ := Arrangement.exists_steps hclips t.clips
    rw [hsteps, Option.some.injEq] at hfound
    subst hfound
    exact (exists_isRendered_iff hsteps hdurations).1 ⟨messages, hrendered⟩
  · intro hticks
    obtain ⟨tracks, htracks⟩ : ∃ tracks, AreRendered defaultTicksPerBeat 0 a.score tracks := by
      rw [exists_forall₂_iff]
      rintro ⟨part, index⟩ hpart
      obtain ⟨t, ht, rfl⟩ := List.mem_map.1 (List.fst_mem_of_mem_zipIdx hpart)
      obtain ⟨steps, hsteps, hdurations⟩ := Arrangement.exists_steps hclips t.clips
      exact (exists_isRendered_iff hsteps hdurations).2 (hticks t ht steps hsteps)
    exact ⟨_, result_render_eq_ok_iff.2 ⟨message, tracks, hmessage, htracks, rfl⟩⟩

theorem sine_ne_empty : "sine" ≠ "" := by decide

/-- A note and a rest. -/
def shortTune : Arrangement where
  name := "short"
  clips := [.instrument ⟨⟨"x", by decide⟩, ⟨"sine", sine_ne_empty⟩, [some [60], none], [1.0, 0.5]⟩]
  tracks := [⟨⟨"t", by decide⟩, ["x"]⟩]

theorem exists_render_shortTune :
    shortTune.report.isValid = true ∧
      ∃ song, (render shortTune (.whole defaultTempo) defaultTicksPerBeat).result = .ok song := by
  have hvalid : shortTune.report.isValid = true := by decide +kernel
  refine ⟨hvalid, (exists_render_iff_of_isValid hvalid).2 ?_⟩
  intro t ht steps hsteps span hspan hgroup
  rw [List.mem_singleton.1 ht] at hsteps
  have hshort : steps = [(some [60], 1.0), (none, 0.5)] := (Option.some.inj hsteps).symm
  rw [hshort] at hspan
  rcases List.mem_pair.1 hspan with rfl | rfl
  · exact ⟨480, rfl⟩
  · exact absurd rfl hgroup

/-- A note whose duration is undefined. -/
def undefinedTune : Arrangement where
  name := "a"
  clips := [.instrument ⟨⟨"x", by decide⟩, ⟨"sine", sine_ne_empty⟩, [some [60]], [Decimal.notANumber]⟩]
  tracks := [⟨⟨"t", by decide⟩, ["x"]⟩]

/-- The undefined number is neither positive nor at most zero, and no error is found. -/
theorem undefinedTune_isValid_not_rendered :
    undefinedTune.report.isValid = true ∧
      (render undefinedTune (.whole defaultTempo) defaultTicksPerBeat).result =
        .error (.number .undefined) :=
  ⟨by decide +kernel, rfl⟩

end Midi

end Arranger
