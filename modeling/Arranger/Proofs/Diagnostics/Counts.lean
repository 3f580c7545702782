import Arranger.Proofs.Diagnostics.Duplicates
import Arranger.Proofs.Diagnostics.Identifiers
import Arranger.Proofs.Diagnostics.References
import Arranger.Proofs.Diagnostics.Validity
import Arranger.Proofs.Midi.Playback

/-!
# The number of remarks

A report has one remark for each thing that is wrong, and none for anything else.  So how many
remarks of a code there are can be told from the clips and the tracks, and their order does not
matter.
-/

namespace Arranger

variable {a b : Arrangement}

/-! ## Severities -/

/-- The remarks of each severity are those of the report that have it, in their order, and each
remark of the report is among those of one severity. -/
structure Report.IsPartitioned (r : Report) : Prop where
  sublist : ∀ severity, (r.ofSeverity severity).Sublist r
  severity_eq : ∀ severity, ∀ remark ∈ r.ofSeverity severity, remark.severity = severity
  perm : (r.ofSeverity .error ++ r.ofSeverity .warning ++ r.ofSeverity .info).Perm r

theorem Report.perm_ofSeverity (r : Report) :
    (r.ofSeverity .error ++ r.ofSeverity .warning ++ r.ofSeverity .info).Perm r := by
  induction r with
  | nil => exact .nil
  | cons remark rest ih =>
      have hcons : ∀ severity, Report.ofSeverity severity (remark :: rest) =
          if remark.severity = severity then remark :: Report.ofSeverity severity rest
          else Report.ofSeverity severity rest := by
        intro severity
        simp [Report.ofSeverity, List.filter_cons]
      rw [hcons, hcons, hcons]
      cases remark.severity with
      | error => exact ih.cons remark
      | warning => exact (List.perm_middle.append_right _).trans (ih.cons remark)
      | info => exact List.perm_middle.trans (ih.cons remark)

theorem Report.isPartitioned (r : Report) : r.IsPartitioned where
  sublist := fun _ => List.filter_sublist
  severity_eq := fun _ _ hremark => of_decide_eq_true (List.mem_filter.1 hremark).2
  perm := r.perm_ofSeverity

/-! ## Findings about single clips -/

theorem Clip.hasLengths_instrument_iff {c : InstrumentClip} :
    (Clip.instrument c).HasLengths ↔ c.notes.length = c.durations.length := by
  constructor
  · intro h
    exact h c rfl
  · rintro h _ ⟨⟩
    exact h

theorem Clip.hasLengths_file (c : FileClip) : (Clip.file c).HasLengths := by
  intro d hd
  cases hd

theorem Clip.hasLengths_empty (c : EmptyClip) : (Clip.empty c).HasLengths := by
  intro d hd
  cases hd

instance : DecidablePred Clip.HasLengths
  | .instrument _ => decidable_of_iff _ Clip.hasLengths_instrument_iff.symm
  | .file c => isTrue (Clip.hasLengths_file c)
  | .empty c => isTrue (Clip.hasLengths_empty c)

def Clip.isFile : Clip → Bool
  | .file _ => true
  | _ => false

theorem withCode_instrument (code : String) (c : InstrumentClip) :
    withCode code (clipFindings (.instrument c)) =
      (if c.notes.length ≠ c.durations.length ∧ lengthsCode = code then
        [.lengths c.name c.notes.length c.durations.length] else []) ++
      if c.durations.any isNonPositive ∧ durationCode = code then [.durationOfClip c.name]
      else [] := by
  have hfindings : clipFindings (.instrument c) =
      (if c.notes.length ≠ c.durations.length then
        [.lengths c.name c.notes.length c.durations.length] else []) ++
      if c.durations.any isNonPositive then [.durationOfClip c.name] else [] := by
    simp [clipFindings, InstrumentClip.lengthsAgree]
  rw [hfindings, withCode_append, withCode_ite, withCode_ite]
  rfl

theorem withCode_empty (code : String) (c : EmptyClip) :
    withCode code (clipFindings (.empty c)) =
      if isNonPositive c.duration ∧ durationCode = code then [.durationOfEmptyClip c.name]
      else [] := by
  rw [clipFindings, withCode_ite]
  rfl

theorem withCode_file (code : String) (c : FileClip) :
    withCode code (clipFindings (.file c)) =
      if fileClipCode = code then [.fileClip c.name] else [] := by
  rw [clipFindings, withCode_singleton]
  rfl

theorem length_lengths (c : Clip) :
    (withCode lengthsCode (clipFindings c)).length = if ¬c.HasLengths then 1 else 0 := by
  have hduration : durationCode ≠ lengthsCode := by decide
  have hfile : fileClipCode ≠ lengthsCode := by decide
  cases c with
  | instrument c =>
      by_cases hagree : c.notes.length = c.durations.length
      · simp [withCode_instrument, Clip.hasLengths_instrument_iff, hagree, hduration]
      · simp [withCode_instrument, Clip.hasLengths_instrument_iff, hagree, hduration]
  | file c => simp [withCode_file, Clip.hasLengths_file, hfile]
  | empty c => simp [withCode_empty, Clip.hasLengths_empty, hduration]

theorem length_durations (c : Clip) :
    (withCode durationCode (clipFindings c)).length =
      if c.durations.any isNonPositive then 1 else 0 := by
  have hlengths : lengthsCode ≠ durationCode := by decide
  have hfile : fileClipCode ≠ durationCode := by decide
  cases c with
  | instrument c =>
      by_cases hany : c.durations.any isNonPositive = true
      · simp [withCode_instrument, Clip.durations, hany, hlengths]
      · simp [withCode_instrument, Clip.durations, hany, hlengths]
  | file c => simp [withCode_file, Clip.durations, hfile]
  | empty c =>
      by_cases hduration : isNonPositive c.duration = true
      · simp [withCode_empty, Clip.durations, hduration]
      · simp [withCode_empty, Clip.durations, hduration]

theorem length_files (c : Clip) :
    (withCode fileClipCode (clipFindings c)).length = if c.isFile then 1 else 0 := by
  have hlengths : lengthsCode ≠ fileClipCode := by decide
  have hduration : durationCode ≠ fileClipCode := by decide
  cases c with
  | instrument c => simp [withCode_instrument, Clip.isFile, hlengths, hduration]
  | file c => simp [withCode_file, Clip.isFile]
  | empty c => simp [withCode_empty, Clip.isFile, hduration]

/-! ## The whole report -/

theorem length_flatMap_eq_countP {α β : Type} {f : α → List β} {p : α → Bool}
    (h : ∀ x, (f x).length = if p x then 1 else 0) (xs : List α) :
    (xs.flatMap f).length = xs.countP p := by
  induction xs with
  | nil => rfl
  | cons x rest ih =>
      rw [List.flatMap_cons, List.length_append, ih, h, List.countP_cons, Nat.add_comm]

theorem length_ofCode (code : String) (a : Arrangement) :
    (a.report.ofCode code).length = (withCode code a.findings).length := by
  rw [ofCode_report, List.length_map]

/-- For each code of clips there is a condition on clips, and one remark for each clip that meets
it. -/
theorem length_ofCode_of_clip {code : String} {p : Clip → Bool} (htrack : code ∉ trackCodes)
    (hname : code ∉ nameCodes)
    (h : ∀ c, (withCode code (clipFindings c)).length = if p c then 1 else 0) (a : Arrangement) :
    (a.report.ofCode code).length = a.clips.countP p := by
  rw [length_ofCode, withCode_findings_of_clip htrack hname, length_flatMap_eq_countP h]

/-- How many remarks of each code a report has about an arrangement. -/
structure Arrangement.IsCountedBy (a : Arrangement) (r : Report) : Prop where
  lengths : (r.ofCode "LENGTH_MISMATCH").length = a.clips.countP fun c => ¬c.HasLengths
  durations : (r.ofCode "NON_POSITIVE_DURATION").length =
    a.clips.countP fun c => c.durations.any isNonPositive
  files : (r.ofCode "FILE_CLIP_STUB").length = a.clips.countP Clip.isFile
  duplicates : (r.ofCode "DUPLICATE_NAME").length + a.names.toFinset.card = a.names.length
  identifiers : (r.ofCode "INVALID_IDENTIFIER").length = a.names.countP (¬IsVariableLine ·)
  noTracks : (r.ofCode "NO_TRACKS").length = if a.tracks = [] then 1 else 0
  unknownClips : (r.ofCode "UNKNOWN_CLIP_REF").length =
    if a.tracks = [] then 0 else a.references.countP (· ∉ a.clipLabels)
  emptyTracks : (r.ofCode "EMPTY_TRACK").length =
    if a.tracks = [] then 0 else a.tracks.countP (·.clips = [])
  unusedClips : (r.ofCode "UNUSED_CLIP").length =
    if a.tracks = [] then 0 else a.clips.countP fun c => .text c.name ∉ a.references

namespace Arrangement

theorem isCountedBy_report (a : Arrangement) : a.IsCountedBy a.report where
  lengths := by
    refine length_ofCode_of_clip (by decide) (by decide) ?_ a
    intro c
    simp only [decide_eq_true_eq]
    exact length_lengths c
  durations := length_ofCode_of_clip (by decide) (by decide) length_durations a
  files := length_ofCode_of_clip (by decide) (by decide) length_files a
  duplicates := by
    have hcount := a.duplicates_add_card
    rwa [duplicates_eq_length, ← length_ofCode] at hcount
  identifiers := by
    rw [← identifierCode, ofCode_identifier, List.length_map, List.countP_eq_length_filter]
  noTracks := by
    rw [length_ofCode, ← noTracksCode, withCode_noTracks]
    split <;> rfl
  unknownClips := by
    rw [length_ofCode, ← unknownClipCode, withCode_unknownClip, List.length_map,
      length_unknownReferences]
    split
    · next hnil => rw [references, hnil, List.flatMap_nil, List.countP_nil]
    · rfl
  emptyTracks := by
    have htrack : ∀ t : Track, (if t.clips = [] then [Finding.emptyTrack t.name] else []).length =
        if decide (t.clips = []) then 1 else 0 := by
      intro t
      simp only [decide_eq_true_eq]
      split <;> rfl
    rw [length_ofCode, ← emptyTrackCode, withCode_emptyTrack, length_flatMap_eq_countP htrack]
    split
    · next hnil => rw [hnil, List.countP_nil]
    · rfl
  unusedClips := by
    rw [length_ofCode, ← unusedClipCode, withCode_unusedClip]
    split
    · rfl
    · rw [List.length_map, ← List.countP_eq_length_filter, clipNames, List.countP_map]
      rfl

end Arrangement

/-! ## Order -/

section Order

variable (hclips : b.clips.Perm a.clips) (htracks : b.tracks.Perm a.tracks)

include hclips in
theorem clipNames_perm : b.clipNames.Perm a.clipNames := hclips.map _

include hclips in
theorem clipLabels_perm : b.clipLabels.Perm a.clipLabels := (clipNames_perm hclips).map _

include htracks in
theorem tracks_eq_nil_iff : b.tracks = [] ↔ a.tracks = [] := by
  rw [← List.length_eq_zero_iff, htracks.length_eq, List.length_eq_zero_iff]

include htracks in
theorem references_perm : b.references.Perm a.references := htracks.flatMap_right _

include hclips htracks in
theorem names_perm : b.names.Perm a.names := (clipNames_perm hclips).append (htracks.map _)

include hclips htracks in
/-- What a report counts does not depend on the order of clips and of tracks. -/
theorem Arrangement.IsCountedBy.of_perm {r : Report} (h : b.IsCountedBy r) : a.IsCountedBy r where
  lengths := by rw [h.lengths, hclips.countP_eq]
  durations := by rw [h.durations, hclips.countP_eq]
  files := by rw [h.files, hclips.countP_eq]
  duplicates := by
    have hnames := names_perm hclips htracks
    rw [← List.toFinset_eq_of_perm _ _ hnames, h.duplicates, hnames.length_eq]
  identifiers := by rw [h.identifiers, (names_perm hclips htracks).countP_eq]
  noTracks := by
    simp only [h.noTracks, tracks_eq_nil_iff htracks]
  unknownClips := by
    simp only [h.unknownClips, tracks_eq_nil_iff htracks, (references_perm htracks).countP_eq,
      (clipLabels_perm hclips).mem_iff]
  emptyTracks := by
    simp only [h.emptyTracks, tracks_eq_nil_iff htracks, htracks.countP_eq]
  unusedClips := by
    simp only [h.unusedClips, tracks_eq_nil_iff htracks, hclips.countP_eq,
      (references_perm htracks).mem_iff]

end Order

/-! ## Codes -/

theorem count_code (code : String) (r : Report) :
    (r.map Remark.code).count code = (r.ofCode code).length := by
  rw [List.count, List.countP_map, List.countP_eq_length_filter, Report.ofCode]
  rfl

theorem code_mem_report {code : String} (h : code ∈ a.report.map Remark.code) :
    code ∈ clipCodes ++ trackCodes ++ nameCodes := by
  have hfinding : code ∈ a.findings.map Finding.code := by
    rwa [Arrangement.report, List.map_map] at h
  rw [map_code_findings, List.mem_append, List.mem_append] at hfinding
  rw [List.mem_append, List.mem_append]
  rcases hfinding with (hclip | htrack) | hname
  · obtain ⟨c, -, hc⟩ := List.mem_flatMap.1 hclip
    exact .inl (.inl (code_mem_clipCodes hc))
  · exact .inl (.inr (code_mem_trackCodes htrack))
  · exact .inr (code_mem_nameCodes hname)

theorem Arrangement.IsCountedBy.length_ofCode_eq {r r' : Report} (h : a.IsCountedBy r)
    (h' : a.IsCountedBy r') {code : String} (hcode : code ∈ clipCodes ++ trackCodes ++ nameCodes) :
    (r.ofCode code).length = (r'.ofCode code).length := by
  simp only [clipCodes, trackCodes, nameCodes, List.cons_append, List.nil_append,
    List.mem_cons, List.not_mem_nil, or_false] at hcode
  rcases hcode with rfl | rfl | rfl | rfl | rfl | rfl | rfl | rfl | rfl
  · exact h.lengths.trans h'.lengths.symm
  · exact h.durations.trans h'.durations.symm
  · exact h.files.trans h'.files.symm
  · exact h.noTracks.trans h'.noTracks.symm
  · exact h.emptyTracks.trans h'.emptyTracks.symm
  · exact h.unknownClips.trans h'.unknownClips.symm
  · exact h.unusedClips.trans h'.unusedClips.symm
  · exact Nat.add_right_cancel (h.duplicates.trans h'.duplicates.symm)
  · exact h.identifiers.trans h'.identifiers.symm

theorem map_code_report_perm (hclips : b.clips.Perm a.clips) (htracks : b.tracks.Perm a.tracks) :
    (b.report.map Remark.code).Perm (a.report.map Remark.code) := by
  have hcounts : a.IsCountedBy b.report := b.isCountedBy_report.of_perm hclips htracks
  rw [List.perm_iff_count]
  intro code
  by_cases hcode : code ∈ clipCodes ++ trackCodes ++ nameCodes
  · rw [count_code, count_code]
    exact hcounts.length_ofCode_eq a.isCountedBy_report hcode
  · rw [List.count_eq_zero_of_not_mem (mt code_mem_report hcode),
      List.count_eq_zero_of_not_mem (mt code_mem_report hcode)]

theorem length_ofCode_eq_zero_iff {code : String} :
    (a.report.ofCode code).length = 0 ↔ code ∉ a.report.codes := by
  rw [← count_code, List.count_eq_zero, Report.codes, List.mem_mergeSort, List.mem_eraseDups]

/-- A report has one remark for each thing that is wrong, and its remarks fall into errors, warnings
and infos.  It is valid exactly if it has none about lengths and durations, and it has the same
codes, each as often, whatever the order of the clips and of the tracks. -/
theorem report_counts (a : Arrangement) :
    a.IsCountedBy a.report ∧ a.report.IsPartitioned ∧
      (a.report.isValid = true ↔
        (a.report.ofCode "LENGTH_MISMATCH").length = 0 ∧
          (a.report.ofCode "NON_POSITIVE_DURATION").length = 0) ∧
      ∀ b : Arrangement, b.clips.Perm a.clips → b.tracks.Perm a.tracks →
        (b.report.map Remark.code).Perm (a.report.map Remark.code) := by
  refine ⟨a.isCountedBy_report, a.report.isPartitioned, ?_, fun b => map_code_report_perm⟩
  rw [isValid_iff_codes, length_ofCode_eq_zero_iff, length_ofCode_eq_zero_iff]
  rfl

/-- Two clips and a track of one name.  The track refers twice to no clip, and another one refers to
nothing. -/
def clutteredTune : Arrangement where
  name := "tune"
  clips :=
    [.instrument ⟨⟨"kick", by decide⟩, ⟨"drum", by decide⟩, [none], []⟩,
      .empty ⟨⟨"kick", by decide⟩, 0.0⟩, .file ⟨⟨"rain", by decide⟩, ⟨"rain.wav", by decide⟩⟩]
  tracks := [⟨⟨"kick", by decide⟩, ["kick", "x", "x"]⟩, ⟨⟨"rest", by decide⟩, []⟩]

def clutteredTuneReversed : Arrangement :=
  { clutteredTune with
    clips := clutteredTune.clips.reverse, tracks := clutteredTune.tracks.reverse }

theorem report_counts_clutteredTune :
    (clutteredTune.report.ofCode "DUPLICATE_NAME").length + 3 = 5 ∧
      (clutteredTuneReversed.report.map Remark.code).Perm
        ["LENGTH_MISMATCH", "NON_POSITIVE_DURATION", "FILE_CLIP_STUB", "UNKNOWN_CLIP_REF",
          "UNKNOWN_CLIP_REF", "EMPTY_TRACK", "UNUSED_CLIP", "DUPLICATE_NAME",
          "DUPLICATE_NAME"] := by
  have hduplicates := (report_counts clutteredTune).1.duplicates
  have hperm := (report_counts clutteredTune).2.2.2 clutteredTuneReversed
    (List.reverse_perm _) (List.reverse_perm _)
  have hcodes : clutteredTune.report.map Remark.code =
      ["LENGTH_MISMATCH", "NON_POSITIVE_DURATION", "FILE_CLIP_STUB", "UNKNOWN_CLIP_REF",
        "UNKNOWN_CLIP_REF", "EMPTY_TRACK", "UNUSED_CLIP", "DUPLICATE_NAME", "DUPLICATE_NAME"] := by
    decide +kernel
  have hdistinct : clutteredTune.names.toFinset.card = 3 := by decide +kernel
  exact ⟨hdistinct ▸ hduplicates, hcodes ▸ hperm⟩

end Arranger
