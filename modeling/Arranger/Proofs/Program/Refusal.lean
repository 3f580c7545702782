import Arranger.Proofs.Arrangement.Edits
import Arranger.Proofs.Diagnostics.Codes
import Arranger.Proofs.Program.Recovery

/-!
# Arrangements without a program

An arrangement has a program unless one of its clips is refused, and then the first refused clip
gives the reason, whether or not a track plays it.  What the names and paths are does not matter.
The report of the arrangement tells beforehand whether there is such a clip.  The program is broken
just if a reference of a track is.
-/

namespace Arranger

/-! ## Broken texts -/

namespace Label

@[simp]
theorem text?_text (s : String) : (text s).text? = some s := rfl

@[simp]
theorem text?_append_eq_none_iff {a b : Label} :
    (a ++ b).text? = none ↔ a.text? = none ∨ b.text? = none := by
  match a, b with
  | text s, text t => simp [text_append]
  | text s, broken t => exact ⟨fun _ => Or.inr rfl, fun _ => rfl⟩
  | broken s, l => exact ⟨fun _ => Or.inl rfl, fun _ => rfl⟩

@[simp]
theorem text?_join_eq_none_iff {labels : List Label} :
    (join labels).text? = none ↔ ∃ l ∈ labels, l.text? = none := by
  induction labels with
  | nil => simp [join]
  | cons l rest ih =>
      rw [List.exists_mem_cons_iff, ← ih]
      exact text?_append_eq_none_iff

end Label

/-- A track refers to a clip by a broken text. -/
def Arrangement.HasBrokenReference (a : Arrangement) : Prop :=
  ∃ t ∈ a.tracks, ∃ clip ∈ t.clips, clip.text? = none

namespace Program

variable {allowStubs : Bool} {a : Arrangement} {fault : Fault}

/-- Why a clip is refused, if it is: its groups and durations are not equally many, or it is a sound
file where placeholders are not allowed. -/
def refusal? (allowStubs : Bool) : Clip → Option Fault
  | .instrument c =>
      if c.notes.length = c.durations.length then none
      else some (.lengths c.name c.notes.length c.durations.length)
  | .empty _ => none
  | .file c => if allowStubs then none else some (.unfinishedClip c.name)

/-- The text, broken or not, unless there is a reason against it. -/
def textUnless {α : Type} (reason : Option Fault) (text : α) : Except Fault α :=
  match reason with
  | none => .ok text
  | some fault => .error fault

theorem textUnless_eq_error_iff {α : Type} {reason : Option Fault} {text : α} :
    textUnless reason text = .error fault ↔ reason = some fault := by
  cases reason <;> simp [textUnless]

theorem exists_textUnless_eq_ok_iff {α : Type} {reason : Option Fault} {text : α} :
    (∃ s, textUnless reason text = .ok s) ↔ reason = none := by
  cases reason <;> simp [textUnless]

theorem result_clip (allowStubs : Bool) (c : Clip) :
    (clip allowStubs c).result = textUnless (refusal? allowStubs c) (clipText c) := by
  cases c with
  | instrument c =>
      by_cases hagree : c.notes.length = c.durations.length
      · simp [clip, refusal?, textUnless, InstrumentClip.lengthsAgree, hagree, Outcome.value,
          clipText]
      · simp [clip, refusal?, textUnless, InstrumentClip.lengthsAgree, hagree, Outcome.fail]
  | empty c => rfl
  | file c => cases allowStubs <;> rfl

theorem result_clips (allowStubs : Bool) (cs : List Clip) :
    (clips allowStubs cs).result =
      textUnless (cs.findSome? (refusal? allowStubs))
        (String.join (cs.map fun c => clipText c ++ "\n")) := by
  induction cs with
  | nil => rfl
  | cons c rest ih =>
      rw [clips, Outcome.result_andThen, result_clip]
      cases hc : refusal? allowStubs c with
      | some fault => simp [textUnless, Except.bind, hc]
      | none =>
          simp only [textUnless, Except.bind, List.findSome?_cons, hc, Outcome.result_andThen, ih]
          cases rest.findSome? (refusal? allowStubs) with
          | some fault => rfl
          | none => simp [Outcome.value]

/-- A program is refused for the reason of its first refused clip. -/
theorem result_source (allowStubs : Bool) (a : Arrangement) :
    (source allowStubs a).result =
      textUnless (a.clips.findSome? (refusal? allowStubs))
        (assemble a (String.join (a.clips.map fun c => clipText c ++ "\n"))) := by
  rw [source, Outcome.result_andThen, result_clips]
  cases a.clips.findSome? (refusal? allowStubs) with
  | none => rfl
  | some fault => rfl

theorem refusal?_eq_none_iff (c : Clip) :
    refusal? allowStubs c = none ↔
      (∀ d, c = .instrument d → d.notes.length = d.durations.length) ∧
        (allowStubs = false → ∀ d, c ≠ .file d) := by
  cases c with
  | instrument c => simp [refusal?]
  | empty c => simp [refusal?]
  | file c => simp [refusal?]

/-- No clip is refused exactly if the report has neither of the two codes. -/
theorem findSome?_refusal?_eq_none_iff :
    a.clips.findSome? (refusal? allowStubs) = none ↔
      lengthsCode ∉ a.report.codes ∧ (allowStubs = false → fileClipCode ∉ a.report.codes) := by
  simp only [List.findSome?_eq_none_iff, refusal?_eq_none_iff, lengthsCode_mem_codes_iff,
    fileClipCode_mem_codes_iff]
  constructor
  · intro hclips
    refine ⟨?_, ?_⟩
    · rintro ⟨c, hc, hne⟩
      exact hne ((hclips _ hc).1 c rfl)
    · rintro hstubs ⟨c, hc⟩
      exact (hclips _ hc).2 hstubs c rfl
  · rintro ⟨hlengths, hfiles⟩ c hc
    refine ⟨?_, ?_⟩
    · rintro d rfl
      by_contra hne
      exact hlengths ⟨d, hc, hne⟩
    · rintro hstubs d rfl
      exact hfiles hstubs ⟨d, hc⟩

/-! ## Broken programs -/

@[simp]
theorem text?_nameList_eq_none_iff {names : List Label} :
    (nameList names).text? = none ↔ ∃ l ∈ names, l.text? = none := by
  simp [nameList]

@[simp]
theorem text?_track_eq_none_iff {t : Track} :
    (track t).text? = none ↔ ∃ clip ∈ t.clips, clip.text? = none := by
  simp [track]

/-- A program that is made is broken just if a reference is. -/
theorem text?_source_eq_none_iff
    {program : Label} (h : (source allowStubs a).result = .ok program) :
    program.text? = none ↔ a.HasBrokenReference := by
  rw [result_source] at h
  cases hrefusal : a.clips.findSome? (refusal? allowStubs) with
  | some fault => simp [textUnless, hrefusal] at h
  | none =>
      rw [hrefusal] at h
      rw [← Except.ok.inj h]
      simp [assemble, tracks, closing, Arrangement.HasBrokenReference]

/-! ## Predictions -/

/-- With placeholders, only an instrument clip without a duration for each group is refused. -/
theorem exists_source_of_hasLengths (h : ∀ c ∈ a.clips, c.HasLengths) :
    ∃ text, (source true a).result = .ok text := by
  rw [result_source, exists_textUnless_eq_ok_iff, List.findSome?_eq_none_iff]
  intro c hc
  rw [refusal?_eq_none_iff]
  exact ⟨h c hc, by simp⟩

/-- The report predicts whether there is a program, and if there is none, the first refused clip is
the reason.  Nothing else fails, and the tracks have no say. -/
theorem source_result_iff (allowStubs : Bool) (a : Arrangement) :
    ((∃ text, (source allowStubs a).result = .ok text) ↔
      "LENGTH_MISMATCH" ∉ a.report.codes ∧
        (allowStubs = false → "FILE_CLIP_STUB" ∉ a.report.codes)) ∧
    ∀ fault, (source allowStubs a).result = .error fault ↔
      a.clips.findSome? (refusal? allowStubs) = some fault := by
  rw [result_source]
  refine ⟨?_, fun fault => textUnless_eq_error_iff⟩
  rw [exists_textUnless_eq_ok_iff]
  exact findSome?_refusal?_eq_none_iff

end Program

end Arranger
