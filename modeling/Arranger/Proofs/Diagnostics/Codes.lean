import Arranger.Diagnostics
import Mathlib.Data.List.Basic

/-!
# The codes of findings

The three checks of an arrangement have codes of their own, so that a code in a report tells which
check it comes from, and a code of the clips which clips it is about.
-/

namespace Arranger

variable {a : Arrangement} {code : String}

theorem mem_codes_iff : code ∈ a.report.codes ↔ code ∈ a.findings.map Finding.code := by
  simp [Report.codes, Arrangement.report, Finding.remark]

theorem map_code_findings (a : Arrangement) :
    a.findings.map Finding.code =
      (a.clips.flatMap fun c => (clipFindings c).map Finding.code) ++
        a.trackFindings.map Finding.code ++ (nameFindings [] a.names).map Finding.code := by
  simp [Arrangement.findings, List.map_flatMap]

/-! ## The codes of each check -/

def lengthsCode : String := "LENGTH_MISMATCH"

def durationCode : String := "NON_POSITIVE_DURATION"

def fileClipCode : String := "FILE_CLIP_STUB"

theorem map_code_instrument (c : InstrumentClip) :
    (clipFindings (.instrument c)).map Finding.code =
      (if c.lengthsAgree then [] else [lengthsCode]) ++
        if c.durations.any isNonPositive then [durationCode] else [] := by
  simp only [clipFindings, List.map_append, apply_ite (List.map Finding.code), List.map_cons,
    List.map_nil]
  rfl

theorem map_code_empty (c : EmptyClip) :
    (clipFindings (.empty c)).map Finding.code =
      if isNonPositive c.duration then [durationCode] else [] := by
  simp only [clipFindings, apply_ite (List.map Finding.code), List.map_cons, List.map_nil]
  rfl

theorem map_code_file (c : FileClip) :
    (clipFindings (.file c)).map Finding.code = [fileClipCode] := rfl

def clipCodes : List String := [lengthsCode, durationCode, fileClipCode]

theorem code_mem_clipCodes
    {c : Clip} {code : String} (h : code ∈ (clipFindings c).map Finding.code) :
    code ∈ clipCodes := by
  cases c with
  | instrument c =>
      rw [map_code_instrument] at h
      rcases List.mem_append.1 h with hlengths | hduration
      · split at hlengths
        · simp at hlengths
        · simp [clipCodes, List.mem_singleton.1 hlengths]
      · split at hduration
        · simp [clipCodes, List.mem_singleton.1 hduration]
        · simp at hduration
  | empty c =>
      rw [map_code_empty] at h
      split at h
      · simp [clipCodes, List.mem_singleton.1 h]
      · simp at h
  | file c =>
      rw [map_code_file] at h
      simp [clipCodes, List.mem_singleton.1 h]

def trackCodes : List String := ["NO_TRACKS", "EMPTY_TRACK", "UNKNOWN_CLIP_REF", "UNUSED_CLIP"]

def nameCodes : List String := ["DUPLICATE_NAME", "INVALID_IDENTIFIER"]

theorem code_mem_trackCodes (h : code ∈ a.trackFindings.map Finding.code) : code ∈ trackCodes := by
  obtain ⟨f, hf, rfl⟩ := List.mem_map.1 h
  unfold Arrangement.trackFindings at hf
  split at hf
  · rw [List.mem_singleton.1 hf]
    simp [Finding.code, trackCodes]
  · rcases List.mem_append.1 hf with htrack | hunused
    · obtain ⟨t, -, ht⟩ := List.mem_flatMap.1 htrack
      rcases List.mem_append.1 ht with hempty | hunknown
      · split at hempty
        · rw [List.mem_singleton.1 hempty]
          simp [Finding.code, trackCodes]
        · simp at hempty
      · obtain ⟨name, -, rfl⟩ := List.mem_map.1 hunknown
        simp [Finding.code, trackCodes]
    · obtain ⟨name, -, rfl⟩ := List.mem_map.1 hunused
      simp [Finding.code, trackCodes]

theorem code_mem_nameCodes
    {seen names : List String} (h : code ∈ (nameFindings seen names).map Finding.code) :
    code ∈ nameCodes := by
  induction names generalizing seen with
  | nil => simp [nameFindings] at h
  | cons name rest ih =>
      simp only [nameFindings, List.map_append, List.mem_append] at h
      rcases h with (hduplicate | hidentifier) | hrest
      · split at hduplicate
        · rw [List.mem_singleton.1 hduplicate]
          simp [Finding.code, nameCodes]
        · simp at hduplicate
      · split at hidentifier
        · simp at hidentifier
        · rw [List.mem_singleton.1 hidentifier]
          simp [Finding.code, nameCodes]
      · exact ih hrest

/-! ## Findings of one code -/

/-- The remarks of a code, in order. -/
def Report.ofCode (code : String) (r : Report) : List Remark := r.filter (·.code = code)

def withCode (code : String) (fs : List Finding) : List Finding := fs.filter (·.code = code)

theorem withCode_append (code : String) (fs gs : List Finding) :
    withCode code (fs ++ gs) = withCode code fs ++ withCode code gs :=
  List.filter_append _ _

theorem withCode_flatMap {α : Type} (code : String) (xs : List α) (f : α → List Finding) :
    withCode code (xs.flatMap f) = xs.flatMap fun x => withCode code (f x) :=
  List.filter_flatMap

theorem withCode_eq_nil {fs : List Finding} (h : code ∉ fs.map Finding.code) :
    withCode code fs = [] := by
  rw [withCode, List.filter_eq_nil_iff]
  intro f hf hcode
  exact h (List.mem_map.2 ⟨f, hf, of_decide_eq_true hcode⟩)

theorem withCode_map {α : Type} {f : α → Finding} {own : String} (hf : ∀ x, (f x).code = own)
    (code : String) (xs : List α) :
    withCode code (xs.map f) = if own = code then xs.map f else [] := by
  have hcode : ∀ g ∈ xs.map f, g.code = own := by
    intro g hg
    obtain ⟨x, -, rfl⟩ := List.mem_map.1 hg
    exact hf x
  split
  · next heq =>
    rw [withCode, List.filter_eq_self]
    intro g hg
    exact decide_eq_true ((hcode g hg).trans heq)
  · next hne =>
    rw [withCode, List.filter_eq_nil_iff]
    intro g hg hsame
    exact hne ((hcode g hg).symm.trans (of_decide_eq_true hsame))

theorem withCode_singleton (code : String) (f : Finding) :
    withCode code [f] = if f.code = code then [f] else [] := by
  simp [withCode, List.filter_cons]

theorem withCode_ite (code : String) (f : Finding) (p : Prop) [Decidable p] :
    withCode code (if p then [f] else []) = if p ∧ f.code = code then [f] else [] := by
  by_cases hp : p
  · simp only [hp, if_true, true_and, withCode_singleton]
  · simp only [hp, if_false, false_and]
    rfl

theorem ofCode_report (code : String) (a : Arrangement) :
    a.report.ofCode code = (withCode code a.findings).map Finding.remark := by
  rw [Report.ofCode, Arrangement.report, List.filter_map]
  rfl

/-- The findings of a code come from the check that the code belongs to. -/
theorem withCode_findings (code : String) (a : Arrangement) :
    withCode code a.findings = (a.clips.flatMap fun c => withCode code (clipFindings c)) ++
      withCode code a.trackFindings ++ withCode code (nameFindings [] a.names) := by
  rw [Arrangement.findings, withCode_append, withCode_append, withCode_flatMap]

theorem withCode_findings_of_clip (htrack : code ∉ trackCodes) (hname : code ∉ nameCodes) :
    withCode code a.findings = a.clips.flatMap fun c => withCode code (clipFindings c) := by
  rw [withCode_findings, withCode_eq_nil (mt code_mem_trackCodes htrack),
    withCode_eq_nil (mt code_mem_nameCodes hname), List.append_nil, List.append_nil]

theorem flatMap_withCode_clips (hclip : code ∉ clipCodes) :
    (a.clips.flatMap fun c => withCode code (clipFindings c)) = [] := by
  rw [List.flatMap_eq_nil_iff]
  exact fun c _ => withCode_eq_nil (mt code_mem_clipCodes hclip)

theorem withCode_findings_of_track (hclip : code ∉ clipCodes) (hname : code ∉ nameCodes) :
    withCode code a.findings = withCode code a.trackFindings := by
  rw [withCode_findings, flatMap_withCode_clips hclip,
    withCode_eq_nil (mt code_mem_nameCodes hname), List.nil_append, List.append_nil]

theorem withCode_findings_of_name (hclip : code ∉ clipCodes) (htrack : code ∉ trackCodes) :
    withCode code a.findings = withCode code (nameFindings [] a.names) := by
  rw [withCode_findings, flatMap_withCode_clips hclip,
    withCode_eq_nil (mt code_mem_trackCodes htrack), List.nil_append, List.nil_append]

/-! ## Codes of clips -/

/-- A code that no other check has is in a report exactly if a clip has a finding of it. -/
theorem mem_codes_iff_clip (htrack : code ∉ trackCodes) (hname : code ∉ nameCodes) :
    code ∈ a.report.codes ↔ ∃ c ∈ a.clips, code ∈ (clipFindings c).map Finding.code := by
  rw [mem_codes_iff, map_code_findings]
  simp only [List.mem_append, List.mem_flatMap]
  constructor
  · rintro ((hclip | hfound) | hfound)
    · exact hclip
    · exact absurd (code_mem_trackCodes hfound) htrack
    · exact absurd (code_mem_nameCodes hfound) hname
  · intro hclip
    exact Or.inl (Or.inl hclip)

theorem lengthsCode_mem_codes_iff :
    lengthsCode ∈ a.report.codes ↔
      ∃ c, Clip.instrument c ∈ a.clips ∧ c.notes.length ≠ c.durations.length := by
  have hduration : lengthsCode ≠ durationCode := by decide
  have hfile : lengthsCode ≠ fileClipCode := by decide
  rw [mem_codes_iff_clip (by decide) (by decide)]
  constructor
  · rintro ⟨c, hc, hcode⟩
    cases c with
    | instrument c =>
        refine ⟨c, hc, ?_⟩
        intro hagree
        simp [map_code_instrument, InstrumentClip.lengthsAgree, hagree, hduration] at hcode
    | empty c => simp [map_code_empty, hduration] at hcode
    | file c => simp [map_code_file, hfile] at hcode
  · rintro ⟨c, hc, hne⟩
    exact ⟨.instrument c, hc, by simp [map_code_instrument, InstrumentClip.lengthsAgree, hne]⟩

theorem fileClipCode_mem_codes_iff :
    fileClipCode ∈ a.report.codes ↔ ∃ c, Clip.file c ∈ a.clips := by
  have hlengths : fileClipCode ≠ lengthsCode := by decide
  have hduration : fileClipCode ≠ durationCode := by decide
  rw [mem_codes_iff_clip (by decide) (by decide)]
  constructor
  · rintro ⟨c, hc, hcode⟩
    cases c with
    | instrument c => simp [map_code_instrument, hlengths, hduration] at hcode
    | empty c => simp [map_code_empty, hduration] at hcode
    | file c => exact ⟨c, hc⟩
  · rintro ⟨c, hc⟩
    exact ⟨.file c, hc, by simp [map_code_file]⟩

end Arranger
