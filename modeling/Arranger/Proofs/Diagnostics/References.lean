import Arranger.Proofs.Diagnostics.Codes

/-!
# Findings about tracks

Without tracks there is one finding about them.  Otherwise a track has one finding for each of its
references to no clip, and one if it has no references, and a clip has one if no track refers to it.
-/

namespace Arranger

def noTracksCode : String := "NO_TRACKS"

def emptyTrackCode : String := "EMPTY_TRACK"

def unknownClipCode : String := "UNKNOWN_CLIP_REF"

def unusedClipCode : String := "UNUSED_CLIP"

theorem code_unknownClip (track : String) (clip : Label) :
    (Finding.unknownClip track clip).code = unknownClipCode := rfl

theorem code_unusedClip (clip : String) : (Finding.unusedClip clip).code = unusedClipCode := rfl

/-! ## Single tracks -/

theorem withCode_track (code : String) (names : List Label) (t : Track) :
    withCode code (trackFindings names t) =
      (if t.clips = [] ∧ emptyTrackCode = code then [.emptyTrack t.name] else []) ++
        if unknownClipCode = code then (t.clips.filter (· ∉ names)).map (.unknownClip t.name ·)
        else [] := by
  rw [trackFindings, withCode_append, withCode_ite, withCode_map (code_unknownClip t.name)]
  simp only [List.isEmpty_iff, List.contains_eq_mem, decide_not]
  rfl

/-! ## All tracks -/

namespace Arrangement

variable {a : Arrangement}

theorem withCode_trackFindings_of_nil (h : a.tracks = []) (code : String) :
    withCode code a.trackFindings = if noTracksCode = code then [.noTracks] else [] := by
  have hempty : a.tracks.isEmpty = true := List.isEmpty_iff.2 h
  rw [Arrangement.trackFindings, if_pos hempty, withCode_singleton]
  rfl

theorem withCode_trackFindings_of_ne_nil (h : a.tracks ≠ []) (code : String) :
    withCode code a.trackFindings =
      (a.tracks.flatMap fun t => withCode code (Arranger.trackFindings a.clipLabels t)) ++
        if unusedClipCode = code then
          (a.clipNames.filter fun name => .text name ∉ a.references).map .unusedClip
        else [] := by
  have hne : ¬a.tracks.isEmpty = true := mt List.isEmpty_iff.1 h
  rw [Arrangement.trackFindings, if_neg hne, withCode_append, withCode_flatMap,
    withCode_map code_unusedClip]
  simp only [List.contains_eq_mem, decide_not]

/-- The references to no clip, each behind the name of its track. -/
def unknownReferences (a : Arrangement) : List (String × Label) :=
  a.tracks.flatMap fun t => (t.clips.filter (· ∉ a.clipLabels)).map fun name => (t.name.val, name)

theorem length_unknownReferences (a : Arrangement) :
    a.unknownReferences.length = a.references.countP (· ∉ a.clipLabels) := by
  rw [unknownReferences, references, List.length_flatMap, List.countP_flatMap]
  simp only [List.length_map, List.countP_eq_length_filter, Function.comp_def]

theorem withCode_noTracks (a : Arrangement) :
    withCode noTracksCode a.findings = if a.tracks = [] then [.noTracks] else [] := by
  have htrack : ∀ t : Track, withCode noTracksCode (Arranger.trackFindings a.clipLabels t) = [] := by
    intro t
    rw [withCode_track, if_neg (fun h => absurd h.2 (by decide)), if_neg (by decide),
      List.append_nil]
  rw [withCode_findings_of_track (by decide) (by decide)]
  by_cases hnil : a.tracks = []
  · rw [withCode_trackFindings_of_nil hnil, if_pos rfl, if_pos hnil]
  · rw [withCode_trackFindings_of_ne_nil hnil, if_neg (by decide), if_neg hnil, List.append_nil,
      List.flatMap_eq_nil_iff]
    exact fun t _ => htrack t

/-- The findings of a code of single tracks come from the tracks alone. -/
theorem withCode_findings_of_tracks {code : String} (hclip : code ∉ clipCodes)
    (hname : code ∉ nameCodes) (hnone : noTracksCode ≠ code) (hunused : unusedClipCode ≠ code)
    (a : Arrangement) :
    withCode code a.findings =
      a.tracks.flatMap fun t => withCode code (Arranger.trackFindings a.clipLabels t) := by
  rw [withCode_findings_of_track hclip hname]
  by_cases hnil : a.tracks = []
  · rw [withCode_trackFindings_of_nil hnil, if_neg hnone, hnil, List.flatMap_nil]
  · rw [withCode_trackFindings_of_ne_nil hnil, if_neg hunused, List.append_nil]

theorem withCode_emptyTrack (a : Arrangement) :
    withCode emptyTrackCode a.findings =
      a.tracks.flatMap fun t => if t.clips = [] then [.emptyTrack t.name] else [] := by
  rw [withCode_findings_of_tracks (by decide) (by decide) (by decide) (by decide)]
  refine List.flatMap_congr fun t _ => ?_
  rw [withCode_track, if_neg (show unknownClipCode ≠ emptyTrackCode by decide), List.append_nil]
  simp only [and_true]

theorem withCode_unknownClip (a : Arrangement) :
    withCode unknownClipCode a.findings =
      a.unknownReferences.map fun r => .unknownClip r.1 r.2 := by
  rw [withCode_findings_of_tracks (by decide) (by decide) (by decide) (by decide),
    unknownReferences, List.map_flatMap]
  refine List.flatMap_congr fun t _ => ?_
  rw [withCode_track, if_neg (fun h => absurd h.2 (by decide)), if_pos rfl, List.nil_append,
    List.map_map]
  rfl

theorem withCode_unusedClip (a : Arrangement) :
    withCode unusedClipCode a.findings =
      if a.tracks = [] then []
      else (a.clipNames.filter fun name => .text name ∉ a.references).map .unusedClip := by
  have htrack : ∀ t : Track,
      withCode unusedClipCode (Arranger.trackFindings a.clipLabels t) = [] := by
    intro t
    rw [withCode_track, if_neg (fun h => absurd h.2 (by decide)), if_neg (by decide),
      List.append_nil]
  rw [withCode_findings_of_track (by decide) (by decide)]
  by_cases hnil : a.tracks = []
  · rw [withCode_trackFindings_of_nil hnil, if_neg (by decide), if_pos hnil]
  · rw [withCode_trackFindings_of_ne_nil hnil, if_pos rfl, if_neg hnil,
      List.flatMap_eq_nil_iff.2 fun t _ => htrack t, List.nil_append]

end Arrangement

end Arranger
