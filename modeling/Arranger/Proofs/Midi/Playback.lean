import Arranger.Midi.Playback
import Arranger.Proofs.Arrangement.Edits
import Arranger.Proofs.Results

/-!
# The steps of a track

The references of a track stand for steps, and the events of the track are those of its steps.
-/

namespace Arranger

open Midi

variable {a : Arrangement}

/-- The steps that a clip plays; none if its groups and durations are not equally many. -/
def Clip.steps? : Clip → Option (List (Step Float))
  | .instrument c =>
      if c.notes.length = c.durations.length then some (c.notes.zip c.durations) else none
  | .empty c => some [(none, c.duration)]
  | .file _ => some []

/-- The durations of a clip. -/
def Clip.durations : Clip → List Float
  | .instrument c => c.durations
  | .empty c => [c.duration]
  | .file _ => []

theorem Clip.HasLengths.exists_steps {c : Clip} {P : Float → Prop} (h : c.HasLengths)
    (hdurations : ∀ d ∈ c.durations, P d) :
    ∃ steps, c.steps? = some steps ∧ ∀ step ∈ steps, P step.2 := by
  cases c with
  | instrument c =>
      refine ⟨c.notes.zip c.durations, if_pos (h c rfl), ?_⟩
      rintro ⟨group, d⟩ hstep
      exact hdurations d (List.of_mem_zip hstep).2
  | empty c =>
      refine ⟨[(none, c.duration)], rfl, ?_⟩
      intro step hstep
      rw [List.mem_singleton.1 hstep]
      exact hdurations c.duration (List.mem_singleton_self _)
  | file c => exact ⟨[], rfl, fun step hstep => absurd hstep List.not_mem_nil⟩

namespace Arrangement

/-- A reference that names a clip is no broken text. -/
theorem clip?_eq_some_iff {name : Label} {c : Clip} :
    a.clip? name = some c ↔ ∃ s, name = .text s ∧ Named.find? Clip.name s a.clips = some c := by
  cases name <;> simp [clip?, Label.text?]

theorem mem_of_clip? {name : Label} {c : Clip} (h : a.clip? name = some c) : c ∈ a.clips := by
  obtain ⟨s, -, hfound⟩ := clip?_eq_some_iff.1 h
  exact List.mem_of_find?_eq_some hfound

/-- The steps of the first clip of a name.  A name of no clip stands for no steps. -/
def stepsOf? (a : Arrangement) (name : Label) : Option (List (Step Float)) :=
  match a.clip? name with
  | none => some []
  | some clip => clip.steps?

/-- The steps that references stand for one after another. -/
def steps? (a : Arrangement) : List Label → Option (List (Step Float))
  | [] => some []
  | name :: rest => do return (← a.stepsOf? name) ++ (← a.steps? rest)

theorem steps?_eq_some_cons_iff {name : Label} {rest : List Label} {steps : List (Step Float)} :
    a.steps? (name :: rest) = some steps ↔
      ∃ first more, a.stepsOf? name = some first ∧ a.steps? rest = some more ∧
        steps = first ++ more := by
  simp only [steps?, bind, pure, Option.bind_eq_some_iff, Option.some.injEq]
  constructor
  · rintro ⟨first, hfirst, more, hmore, rfl⟩
    exact ⟨first, more, hfirst, hmore, rfl⟩
  · rintro ⟨first, more, hfirst, hmore, rfl⟩
    exact ⟨first, hfirst, more, hmore, rfl⟩

theorem steps?_singleton (a : Arrangement) (name : Label) :
    a.steps? [name] = a.stepsOf? name := by
  cases h : a.stepsOf? name <;> simp [steps?, h]

theorem steps?_append (a : Arrangement) (refs more : List Label) :
    a.steps? (refs ++ more) = do return (← a.steps? refs) ++ (← a.steps? more) := by
  induction refs with
  | nil => cases h : a.steps? more <;> simp [steps?, h]
  | cons name rest ih =>
      rw [List.cons_append, steps?, steps?, ih]
      cases a.stepsOf? name with
      | none => rfl
      | some first =>
          cases a.steps? rest with
          | none => rfl
          | some second => cases a.steps? more <;> simp

theorem exists_steps_of_clips {P : Float → Prop}
    (h : ∀ c ∈ a.clips, ∃ steps, c.steps? = some steps ∧ ∀ step ∈ steps, P step.2)
    (refs : List Label) : ∃ steps, a.steps? refs = some steps ∧ ∀ step ∈ steps, P step.2 := by
  induction refs with
  | nil => exact ⟨[], rfl, fun step hstep => absurd hstep List.not_mem_nil⟩
  | cons name rest ih =>
      obtain ⟨more, hmore, hdurations⟩ := ih
      obtain ⟨first, hfirst, hfirstDurations⟩ : ∃ first, a.stepsOf? name = some first ∧
          ∀ step ∈ first, P step.2 := by
        unfold Arrangement.stepsOf?
        cases hclip : a.clip? name with
        | none => exact ⟨[], rfl, fun step hstep => absurd hstep List.not_mem_nil⟩
        | some clip => exact h clip (mem_of_clip? hclip)
      refine ⟨first ++ more, steps?_eq_some_cons_iff.2 ⟨_, _, hfirst, hmore, rfl⟩, ?_⟩
      intro step hstep
      rcases List.mem_append.1 hstep with hstep | hstep
      · exact hfirstDurations step hstep
      · exact hdurations step hstep

end Arrangement

namespace Midi

variable {τ : Type} {clock : Clock τ Float} {channel : Int} {played : List Event × τ}

theorem result_clipSteps_eq_ok_iff {clip : Clip} {steps : List (Step Float)} :
    (clipSteps clip).result = .ok steps ↔ clip.steps? = some steps := by
  cases clip with
  | instrument c =>
      by_cases hagree : c.notes.length = c.durations.length
      · simp [clipSteps, Clip.steps?, InstrumentClip.lengthsAgree, hagree, Outcome.value]
      · simp [clipSteps, Clip.steps?, InstrumentClip.lengthsAgree, hagree, Outcome.fail]
  | empty c => simp [clipSteps, Clip.steps?, Outcome.value]
  | file c => simp [clipSteps, Clip.steps?]

theorem result_clipEvents_eq_ok_iff {clip : Clip} {position : τ} :
    (clipEvents clock channel position clip).result = .ok played ↔
      ∃ steps, clip.steps? = some steps ∧ walk clock channel position steps = .ok played := by
  simp only [clipEvents, Outcome.result_andThen_eq_ok_iff, result_clipSteps_eq_ok_iff, Outcome.of]

theorem walk_append_eq_ok_iff {position : τ} {steps more : List (Step Float)} :
    walk clock channel position (steps ++ more) = .ok played ↔
      ∃ before after, walk clock channel position steps = .ok before ∧
        walk clock channel before.2 more = .ok after ∧ played = (before.1 ++ after.1, after.2) := by
  simp only [walk_append, bind_eq_ok_iff, pure, Except.pure, Except.ok.injEq]
  constructor
  · rintro ⟨before, hbefore, after, hafter, rfl⟩
    exact ⟨before, after, hbefore, hafter, rfl⟩
  · rintro ⟨before, after, hbefore, hafter, rfl⟩
    exact ⟨before, hbefore, after, hafter, rfl⟩

/-- The events behind references are those of the steps that the references stand for, walked in
one go. -/
theorem result_referenceEvents_eq_ok_iff {track : String} {position : τ} {refs : List Label} :
    (referenceEvents clock channel a track position refs).result = .ok played ↔
      ∃ steps, a.steps? refs = some steps ∧ walk clock channel position steps = .ok played := by
  -- The position is where the clips before have ended.
  induction refs generalizing position played with
  | nil => simp [referenceEvents, Arrangement.steps?, Outcome.value, walk]
  | cons name rest ih =>
      simp only [Arrangement.steps?_eq_some_cons_iff, Arrangement.stepsOf?, referenceEvents]
      cases a.clip? name with
      | none => simp [Outcome.result_andThen_eq_ok_iff, Outcome.warn, ih]
      | some clip =>
          simp only [Outcome.result_andThen_eq_ok_iff, result_clipEvents_eq_ok_iff, ih,
            Outcome.value, Except.ok.injEq]
          constructor
          · rintro ⟨before, ⟨first, hfirst, hbefore⟩, after, ⟨more, hmore, hafter⟩, rfl⟩
            exact ⟨first ++ more, ⟨first, more, hfirst, hmore, rfl⟩,
              walk_append_eq_ok_iff.2 ⟨before, after, hbefore, hafter, rfl⟩⟩
          · rintro ⟨_, ⟨first, more, hfirst, hmore, rfl⟩, hwalk⟩
            obtain ⟨before, after, hbefore, hafter, rfl⟩ := walk_append_eq_ok_iff.1 hwalk
            exact ⟨before, ⟨first, hfirst, hbefore⟩, after, ⟨more, hmore, hafter⟩, rfl⟩

/-- The steps that references stand for are walked in one go, and fail as the walk does. -/
theorem result_referenceEvents_of_steps? {track : String} {position : τ} {refs : List Label}
    {steps : List (Step Float)} (h : a.steps? refs = some steps) :
    (referenceEvents clock channel a track position refs).result =
      walk clock channel position steps := by
  induction refs generalizing position steps with
  | nil =>
      cases h
      rfl
  | cons name rest ih =>
      obtain ⟨first, more, hfirst, hmore, rfl⟩ := Arrangement.steps?_eq_some_cons_iff.1 h
      unfold referenceEvents
      cases hclip : a.clip? name with
      | none =>
          simp only [Arrangement.stepsOf?, hclip, Option.some.injEq] at hfirst
          subst hfirst
          exact ih hmore
      | some clip =>
          simp only [Arrangement.stepsOf?, hclip] at hfirst
          have hclipSteps := result_clipSteps_eq_ok_iff.2 hfirst
          simp only [Outcome.result_andThen, clipEvents, hclipSteps, Outcome.of, ih hmore,
            Outcome.value, walk_append]
          rfl

end Midi

end Arranger
