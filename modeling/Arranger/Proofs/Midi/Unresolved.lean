import Arranger.Midi.Song
import Arranger.Proofs.Diagnostics.References
import Arranger.Proofs.Midi.Playback
import Arranger.Proofs.Named
import Arranger.Proofs.Results

/-!
# References to no clip

A rendering passes over the references to no clip with a warning each, and every other reference is
played as the clip that it resolves to.  The report has a remark for each reference to no clip.  So
a rendering that succeeds has warned of exactly those references that the report remarks on.
-/

namespace Arranger

open Midi

variable {a : Arrangement} {name : Label}

/-! ## Clips of references -/

namespace Arrangement

theorem text_mem_clipLabels {s : String} : .text s ∈ a.clipLabels ↔ s ∈ a.clipNames := by
  simp [clipLabels]

theorem clip?_eq_none_iff : a.clip? name = none ↔ name ∉ a.clipLabels := by
  cases name with
  | text s =>
      rw [text_mem_clipLabels]
      exact Named.find?_eq_none_iff
  | broken t => simp [clip?, Label.text?, clipLabels]

theorem name_of_clip? {c : Clip} (h : a.clip? name = some c) : .text c.name = name := by
  obtain ⟨s, rfl, hfound⟩ := clip?_eq_some_iff.1 h
  exact congrArg _ (Named.name_of_find? hfound)

theorem mem_clipLabels_of_clip? {c : Clip} (h : a.clip? name = some c) : name ∈ a.clipLabels := by
  rw [← name_of_clip? h, text_mem_clipLabels]
  exact List.mem_map_of_mem (mem_of_clip? h)

/-- The clips that references resolve to, one after another. -/
def resolved (a : Arrangement) (refs : List Label) : List Clip := refs.filterMap a.clip?

/-- The references that resolve to a clip are those to the name of one. -/
theorem map_name_resolved (a : Arrangement) (refs : List Label) :
    ((a.resolved refs).map fun c => .text c.name) = refs.filter (· ∈ a.clipLabels) := by
  induction refs with
  | nil => rfl
  | cons name rest ih =>
      cases hclip : a.clip? name with
      | none =>
          have hunknown := clip?_eq_none_iff.1 hclip
          rw [resolved, List.filterMap_cons_none hclip, List.filter_cons_of_neg (by simpa)]
          exact ih
      | some clip =>
          have hknown := mem_clipLabels_of_clip? hclip
          rw [resolved, List.filterMap_cons_some hclip, List.filter_cons_of_pos (by simpa),
            List.map_cons, name_of_clip? hclip]
          exact congrArg _ ih

end Arrangement

/-! ## Warnings and remarks -/

/-- The track and the reference of a warning about a reference to no clip. -/
def Warning.reference? : Warning → Option (String × Label)
  | .unknownClip track clip => some (track, clip)
  | _ => none

/-- What a report says about a reference to no clip, which comes behind the name of its track. -/
def unknownRemark (reference : String × Label) : Remark :=
  (Finding.unknownClip reference.1 reference.2).remark

/-- The track and the reference can be told from the remark. -/
theorem unknownRemark_injective : Function.Injective unknownRemark := by
  rintro ⟨track, clip⟩ ⟨track', clip'⟩ h
  have hlocation : some ("tracks/" ++ track) = some ("tracks/" ++ track') :=
    congrArg Remark.location h
  obtain rfl := String.append_right_inj _ |>.1 (Option.some.inj hlocation)
  have hmessage : .text ("Track '" ++ track ++ "' references unknown clip: ") ++ clip =
      .text ("Track '" ++ track ++ "' references unknown clip: ") ++ clip' :=
    congrArg Remark.message h
  rw [Label.append_right_inj.1 hmessage]

theorem ofCode_unknownClip (a : Arrangement) :
    a.report.ofCode unknownClipCode = a.unknownReferences.map unknownRemark := by
  rw [ofCode_report, a.withCode_unknownClip, List.map_map]
  rfl

namespace Outcome

variable {α β : Type}

/-- The references to no clip that are warned of on the way to an outcome. -/
def passedOver (x : Outcome α) : List (String × Label) := x.warnings.filterMap Warning.reference?

theorem passedOver_andThen {x : Outcome α} {v : α} (h : x.result = .ok v) (f : α → Outcome β) :
    (x.andThen f).passedOver = x.passedOver ++ (f v).passedOver := by
  simp only [passedOver, andThen, h, List.filterMap_append]

theorem passedOver_value (v : α) : (value v).passedOver = [] := rfl

theorem passedOver_of (x : Except Fault α) : (of x).passedOver = [] := rfl

end Outcome

/-! ## Tracks -/

namespace Midi

variable {τ : Type} {clock : Clock τ Float} {channel : Int} {position : τ} {refs : List Label}
  {track : String} {ticksPerBeat : Int} {beatsPerMinute : Decimal.Number}

/-- The events of clips one after another, each from the position behind the one before it. -/
def clipsEvents (clock : Clock τ Float) (channel : Int) : τ → List Clip → Outcome (List Event × τ)
  | position, [] => .value ([], position)
  | position, clip :: rest =>
      (clipEvents clock channel position clip).andThen fun (events, next) =>
        (clipsEvents clock channel next rest).andThen fun (more, last) =>
          .value (events ++ more, last)

/-- The references that resolve to a clip are played, and no others. -/
theorem result_referenceEvents :
    (referenceEvents clock channel a track position refs).result =
      (clipsEvents clock channel position (a.resolved refs)).result := by
  -- The position is where the clips before have ended.
  induction refs generalizing position with
  | nil => rfl
  | cons name rest ih =>
      unfold referenceEvents
      cases hclip : a.clip? name with
      | none =>
          rw [Arrangement.resolved, List.filterMap_cons_none hclip]
          exact ih
      | some clip =>
          rw [Arrangement.resolved, List.filterMap_cons_some hclip, clipsEvents]
          simp only [Outcome.result_andThen, ih]
          rfl

theorem passedOver_clipSteps (clip : Clip) : (clipSteps clip).passedOver = [] := by
  cases clip with
  | instrument c =>
      dsimp only [clipSteps]
      split <;> rfl
  | file c => rfl
  | empty c => rfl

theorem passedOver_clipEvents {clip : Clip} {played : List Event × τ}
    (h : (clipEvents clock channel position clip).result = .ok played) :
    (clipEvents clock channel position clip).passedOver = [] := by
  obtain ⟨steps, hsteps, -⟩ := Outcome.result_andThen_eq_ok_iff.1 h
  rw [clipEvents, Outcome.passedOver_andThen hsteps, passedOver_clipSteps, Outcome.passedOver_of,
    List.append_nil]

/-- The references to no clip are warned of one after another. -/
theorem passedOver_referenceEvents {played : List Event × τ}
    (h : (referenceEvents clock channel a track position refs).result = .ok played) :
    (referenceEvents clock channel a track position refs).passedOver =
      (refs.filter (· ∉ a.clipLabels)).map fun name => (track, name) := by
  induction refs generalizing position played with
  | nil => rfl
  | cons name rest ih =>
      unfold referenceEvents at h ⊢
      cases hclip : a.clip? name with
      | none =>
          have hunknown := Arrangement.clip?_eq_none_iff.1 hclip
          simp only [hclip] at h ⊢
          rw [List.filter_cons_of_pos (by simpa), List.map_cons,
            Outcome.passedOver_andThen (v := ()) rfl, ih h]
          rfl
      | some clip =>
          have hknown := Arrangement.mem_clipLabels_of_clip? hclip
          simp only [hclip] at h ⊢
          obtain ⟨first, hfirst, hrest⟩ := Outcome.result_andThen_eq_ok_iff.1 h
          obtain ⟨second, hsecond, -⟩ := Outcome.result_andThen_eq_ok_iff.1 hrest
          rw [List.filter_cons_of_neg (by simpa), Outcome.passedOver_andThen hfirst,
            passedOver_clipEvents hfirst, Outcome.passedOver_andThen hsecond, ih hsecond,
            Outcome.passedOver_value, List.append_nil, List.nil_append]

/-! ## Songs -/

/-- The messages of a track that plays clips one after another. -/
def PlaysClips (ticksPerBeat : Int) (index : Nat) (t : Track) (clips : List Clip)
    (messages : List Timed) : Prop :=
  ∃ events last, (clipsEvents (beatClock ticksPerBeat) (channelOf index) startPosition
    clips).result = .ok (events, last) ∧ messages = Midi.track t.name events

theorem playsClips_of_trackMessages {index : Nat} {t : Track} {messages : List Timed}
    (h : (trackMessages ticksPerBeat a index t).result = .ok messages) :
    PlaysClips ticksPerBeat index t (a.resolved t.clips) messages := by
  obtain ⟨⟨events, last⟩, hevents, hmessages⟩ := Outcome.result_andThen_eq_ok_iff.1 h
  rw [result_referenceEvents] at hevents
  exact ⟨events, last, hevents, (Except.ok.inj hmessages).symm⟩

theorem passedOver_trackMessages {index : Nat} {t : Track} {messages : List Timed}
    (h : (trackMessages ticksPerBeat a index t).result = .ok messages) :
    (trackMessages ticksPerBeat a index t).passedOver =
      (t.clips.filter (· ∉ a.clipLabels)).map fun name => (t.name.val, name) := by
  obtain ⟨played, hplayed, -⟩ := Outcome.result_andThen_eq_ok_iff.1 h
  rw [trackMessages, Outcome.passedOver_andThen hplayed, passedOver_referenceEvents hplayed]
  exact List.append_nil _

theorem of_allTracks {index : Nat} {ts : List Track} {tracks : List (List Timed)}
    (h : (allTracks ticksPerBeat a index ts).result = .ok tracks) :
    ((allTracks ticksPerBeat a index ts).passedOver =
      ts.flatMap fun t => (t.clips.filter (· ∉ a.clipLabels)).map fun name => (t.name.val, name)) ∧
    List.Forall₂ (fun t messages => PlaysClips ticksPerBeat t.2 t.1 (a.resolved t.1.clips) messages)
      (ts.zipIdx index) tracks := by
  induction ts generalizing index tracks with
  | nil =>
      obtain rfl := Except.ok.inj h
      exact ⟨rfl, .nil⟩
  | cons t rest ih =>
      obtain ⟨messages, hmessages, hrest⟩ := Outcome.result_andThen_eq_ok_iff.1 h
      obtain ⟨more, hmore, htracks⟩ := Outcome.result_andThen_eq_ok_iff.1 hrest
      obtain rfl := Except.ok.inj htracks
      obtain ⟨hpassed, hplayed⟩ := ih hmore
      refine ⟨?_, .cons (playsClips_of_trackMessages hmessages) hplayed⟩
      rw [allTracks, Outcome.passedOver_andThen hmessages, Outcome.passedOver_andThen hmore,
        passedOver_trackMessages hmessages, hpassed, Outcome.passedOver_value, List.append_nil,
        List.flatMap_cons]

/-- A rendering that succeeds has warned of exactly the references that the report remarks on, in
their order.  The other references of a track are those to the name of a clip, and what the track
plays is the clips that they resolve to. -/
theorem render_passes_over {song : Song}
    (h : (render a beatsPerMinute ticksPerBeat).result = .ok song) :
    (∀ references, (render a beatsPerMinute ticksPerBeat).passedOver = references ↔
      a.report.ofCode "UNKNOWN_CLIP_REF" = references.map unknownRemark) ∧
    (render a beatsPerMinute ticksPerBeat).passedOver = a.unknownReferences ∧
    (∀ t ∈ a.tracks,
      ((a.resolved t.clips).map fun c => .text c.name) = t.clips.filter (· ∈ a.clipLabels)) ∧
    ∃ message tracks, song.tracks = tempoTrack message :: tracks ∧
      List.Forall₂
        (fun t messages => PlaysClips ticksPerBeat t.2 t.1 (a.resolved t.1.clips) messages)
        a.tracks.zipIdx tracks := by
  obtain ⟨message, hmessage, hsong⟩ := Outcome.result_andThen_eq_ok_iff.1 h
  obtain ⟨tracks, htracks, hvalue⟩ := Outcome.result_andThen_eq_ok_iff.1 hsong
  obtain rfl := Except.ok.inj hvalue
  obtain ⟨hpassed, hplayed⟩ := of_allTracks htracks
  have hrender : (render a beatsPerMinute ticksPerBeat).passedOver = a.unknownReferences := by
    rw [render, Outcome.passedOver_andThen hmessage, Outcome.passedOver_andThen htracks,
      Outcome.passedOver_of, Outcome.passedOver_value, hpassed, List.append_nil, List.nil_append,
      Arrangement.unknownReferences]
  refine ⟨?_, hrender, fun t _ => a.map_name_resolved t.clips, message, tracks, rfl, hplayed⟩
  intro references
  rw [hrender, ← unknownClipCode, ofCode_unknownClip, List.map_inj_right unknownRemark_injective]

/-- A track that is named like two clips refers twice to no clip, to the first of the two and to a
sound file.  Another one refers to its own name, again to no clip, and to the same clip. -/
def tangledTune : Arrangement where
  name := "tune"
  clips :=
    [.instrument ⟨⟨"riff", by decide⟩, ⟨"flute", by decide⟩, [some [60]], [1.0]⟩,
      .file ⟨⟨"waves", by decide⟩, ⟨"waves.wav", by decide⟩⟩, .empty ⟨⟨"riff", by decide⟩, 2.0⟩]
  tracks :=
    [⟨⟨"riff", by decide⟩, ["x", "riff", "x", "waves"]⟩,
      ⟨⟨"echo", by decide⟩, ["echo", "x", "riff"]⟩]

theorem render_passes_over_tangledTune :
    (∃ song, (render tangledTune (.whole 60) 480).result = .ok song) ∧
      (render tangledTune (.whole 60) 480).passedOver =
        [("riff", .text "x"), ("riff", .text "x"), ("echo", .text "echo"), ("echo", .text "x")] ∧
      (tangledTune.resolved ["x", "riff", "x", "waves"]).map (fun c => Label.text c.name) =
        [.text "riff", .text "waves"] := by
  have hreturns : (render tangledTune (.whole 60) 480).result.toOption.isSome = true := by
    decide +kernel
  obtain ⟨song, hsong⟩ := exists_eq_ok_of_isSome hreturns
  obtain ⟨-, hpassed, hnames, -⟩ := render_passes_over hsong
  have hunknown : tangledTune.unknownReferences =
      [("riff", .text "x"), ("riff", .text "x"), ("echo", .text "echo"), ("echo", .text "x")] := by
    decide +kernel
  have hknown : [Label.text "x", "riff", "x", "waves"].filter (· ∈ tangledTune.clipLabels) =
      [.text "riff", .text "waves"] := by decide +kernel
  exact ⟨⟨song, hsong⟩, hpassed.trans hunknown, (hnames _ List.mem_cons_self).trans hknown⟩

end Midi

end Arranger
