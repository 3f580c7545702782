import Arranger.Proofs.Diagnostics.Codes

/-!
# Valid arrangements

An error is always about a clip.  A report is valid exactly if every clip has as many durations as
groups, and none of its durations is zero or negative.
-/

namespace Arranger

variable {a : Arrangement}

/-- No duration is zero or negative, and each belongs to a group. -/
def Clip.IsPlayable : Clip → Prop
  | .instrument c =>
      c.notes.length = c.durations.length ∧ ∀ d ∈ c.durations, isNonPositive d = false
  | .empty c => isNonPositive c.duration = false
  | .file _ => True

theorem durationCode_mem_codes_iff :
    durationCode ∈ a.report.codes ↔
      (∃ c, Clip.instrument c ∈ a.clips ∧ ∃ d ∈ c.durations, isNonPositive d = true) ∨
        ∃ c, Clip.empty c ∈ a.clips ∧ isNonPositive c.duration = true := by
  have hlengths : durationCode ≠ lengthsCode := by decide
  have hfile : durationCode ≠ fileClipCode := by decide
  rw [mem_codes_iff_clip (by decide) (by decide)]
  constructor
  · rintro ⟨c, hc, hcode⟩
    cases c with
    | instrument c =>
        rw [map_code_instrument, List.mem_append] at hcode
        refine .inl ⟨c, hc, ?_⟩
        rcases hcode with hcode | hcode
        · split at hcode
          · simp at hcode
          · exact absurd (List.mem_singleton.1 hcode) hlengths
        · split at hcode
          · next hany => exact List.any_eq_true.1 hany
          · simp at hcode
    | empty c =>
        rw [map_code_empty] at hcode
        split at hcode
        · next hduration => exact .inr ⟨c, hc, hduration⟩
        · simp at hcode
    | file c => simp [map_code_file, hfile] at hcode
  · rintro (⟨c, hc, hduration⟩ | ⟨c, hc, hduration⟩)
    · exact ⟨.instrument c, hc, by simp [map_code_instrument, List.any_eq_true.2 hduration]⟩
    · exact ⟨.empty c, hc, by simp [map_code_empty, hduration]⟩

/-- The codes of errors are those of lengths and of durations. -/
theorem severity_eq_error_iff (f : Finding) :
    f.severity = .error ↔ f.code = lengthsCode ∨ f.code = durationCode := by
  cases f <;> simp [Finding.severity, Finding.code, lengthsCode, durationCode]

theorem isValid_iff_codes :
    a.report.isValid = true ↔ lengthsCode ∉ a.report.codes ∧ durationCode ∉ a.report.codes := by
  have hcode : ∀ code, code ∈ a.report.codes ↔ ∃ f ∈ a.findings, f.code = code := by
    intro code
    rw [mem_codes_iff, List.mem_map]
  rw [hcode, hcode, Report.isValid, Report.ofSeverity, List.isEmpty_iff, List.filter_eq_nil_iff]
  constructor
  · intro hnone
    have hfinding : ∀ f ∈ a.findings, f.severity ≠ .error := by
      intro f hf herror
      exact hnone f.remark (List.mem_map_of_mem hf) (decide_eq_true herror)
    constructor
    · rintro ⟨f, hf, hlengths⟩
      exact hfinding f hf ((severity_eq_error_iff f).2 (.inl hlengths))
    · rintro ⟨f, hf, hduration⟩
      exact hfinding f hf ((severity_eq_error_iff f).2 (.inr hduration))
  · rintro ⟨hlengths, hduration⟩ r hr
    obtain ⟨f, hf, rfl⟩ := List.mem_map.1 hr
    intro herror
    rcases (severity_eq_error_iff f).1 (of_decide_eq_true herror) with hcode | hcode
    · exact hlengths ⟨f, hf, hcode⟩
    · exact hduration ⟨f, hf, hcode⟩

theorem isValid_iff : a.report.isValid = true ↔ ∀ c ∈ a.clips, c.IsPlayable := by
  rw [isValid_iff_codes, lengthsCode_mem_codes_iff, durationCode_mem_codes_iff, not_or]
  constructor
  · rintro ⟨hlengths, hdurations, hempty⟩ c hc
    cases c with
    | instrument c =>
        refine ⟨?_, ?_⟩
        · by_contra hne
          exact hlengths ⟨c, hc, hne⟩
        · intro d hd
          rw [← Bool.not_eq_true]
          exact fun hduration => hdurations ⟨c, hc, d, hd, hduration⟩
    | empty c =>
        change isNonPositive c.duration = false
        rw [← Bool.not_eq_true]
        exact fun hduration => hempty ⟨c, hc, hduration⟩
    | file c => trivial
  · intro hclips
    refine ⟨?_, ?_, ?_⟩
    · rintro ⟨c, hc, hne⟩
      exact hne (hclips _ hc).1
    · rintro ⟨c, hc, d, hd, hduration⟩
      have hpositive := (hclips _ hc).2 d hd
      rw [hduration] at hpositive
      cases hpositive
    · rintro ⟨c, hc, hduration⟩
      have hpositive : isNonPositive c.duration = false := hclips _ hc
      rw [hduration] at hpositive
      cases hpositive

end Arranger
