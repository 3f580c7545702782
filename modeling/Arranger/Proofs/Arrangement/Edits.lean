import Arranger.Arrangement.Basic
import Arranger.Proofs.Named

/-!
# Edits of arrangements

In a tidy arrangement no two clips and no two tracks have the same name, and every instrument clip
has a duration for each of its groups.  Edits keep it tidy if the clips that they put have a
duration for each group.  Each of them makes a difference in one place.
-/

namespace Arranger

/-! ## Edits -/

/-- An instrument clip has as many durations as groups. -/
def Clip.HasLengths (c : Clip) : Prop :=
  ∀ d, c = .instrument d → d.notes.length = d.durations.length

/-- What an edit makes of an arrangement. -/
inductive Edited (a : Arrangement) : Arrangement → Prop where
  | addClip (c : Clip) (hc : c.HasLengths) : Edited a (a.addClip c)
  | addTrack (t : Track) : Edited a (a.addTrack t)
  | removeClip {name : String} {b : Arrangement} (h : a.removeClip? name = some b) : Edited a b
  | appendClip {track clip : String} {b : Arrangement} (h : a.appendClip? track clip = some b) :
      Edited a b
  | removeTrack {name : String} {b : Arrangement} (h : a.removeTrack? name = some b) : Edited a b

theorem Edited.name_eq {a b : Arrangement} (h : Edited a b) : b.name = a.name := by
  cases h with
  | addClip c hc => rfl
  | addTrack t => rfl
  | removeClip h | appendClip h | removeTrack h =>
      obtain ⟨_, -, rfl⟩ := Option.map_eq_some_iff.1 h
      rfl

/-! ## Differences -/

/-- The lists of an arrangement. -/
inductive Pool where
  | clips
  | tracks
  deriving DecidableEq

/-- The second arrangement differs from the first in one clip or one track at most, that of a name;
everything else is the same and in the same order. -/
def Arrangement.DiffersIn (a b : Arrangement) (name : String) : Pool → Prop
  | .clips => b.name = a.name ∧ Named.Differs Clip.name name a.clips b.clips ∧ b.tracks = a.tracks
  | .tracks => b.name = a.name ∧ b.clips = a.clips ∧
      Named.Differs (fun t : Track => t.name.val) name a.tracks b.tracks

/-! ## Tidiness -/

namespace Arrangement

theorem track?_addTrack (a : Arrangement) (track : Track) :
    (a.addTrack track).track? track.name = some track :=
  Named.find?_put_self (fun t : Track => t.name.val) track a.tracks

/-- Names are not empty and stand for one clip and one track each, instrument clips have a duration
for each group, and pitches have seven bits. -/
structure IsTidy (a : Arrangement) : Prop where
  clipNames_nonempty : "" ∉ a.clipNames
  clipNames_nodup : a.clipNames.Nodup
  trackNames_nonempty : "" ∉ a.trackNames
  trackNames_nodup : a.trackNames.Nodup
  lengths_eq : ∀ c, .instrument c ∈ a.clips → c.notes.length = c.durations.length
  pitch_le : ∀ c, .instrument c ∈ a.clips → ∀ ps, some ps ∈ c.notes → ∀ p ∈ ps, p.val ≤ 127

variable {a b : Arrangement}

/-- Clips and tracks carry what is said of single names and pitches. -/
theorem IsTidy.of_nodup (hclips : a.clipNames.Nodup) (htracks : a.trackNames.Nodup)
    (hlengths : ∀ c ∈ a.clips, c.HasLengths) : a.IsTidy where
  clipNames_nonempty := by
    intro hmem
    obtain ⟨c, -, hname⟩ := List.mem_map.1 hmem
    cases c with
    | instrument c => exact c.name.property hname
    | file c => exact c.name.property hname
    | empty c => exact c.name.property hname
  clipNames_nodup := hclips
  trackNames_nonempty := by
    intro hmem
    obtain ⟨t, -, hname⟩ := List.mem_map.1 hmem
    exact t.name.property hname
  trackNames_nodup := htracks
  lengths_eq := fun c hc => hlengths _ hc c rfl
  pitch_le := fun _ _ _ _ p _ => Nat.le_of_lt_succ p.isLt

theorem IsTidy.hasLengths (h : a.IsTidy) : ∀ c ∈ a.clips, c.HasLengths := by
  rintro _ hc d rfl
  exact h.lengths_eq d hc

theorem isTidy_new (name : Label) : (new name).IsTidy :=
  .of_nodup List.nodup_nil List.nodup_nil fun _ hc => absurd hc List.not_mem_nil

theorem IsTidy.rename (h : a.IsTidy) (name : Label) : IsTidy { a with name } :=
  ⟨h.clipNames_nonempty, h.clipNames_nodup, h.trackNames_nonempty, h.trackNames_nodup, h.lengths_eq,
    h.pitch_le⟩

theorem IsTidy.edited (h : a.IsTidy) (hedited : Edited a b) : b.IsTidy := by
  cases hedited with
  | addClip c hc =>
      refine .of_nodup (Named.nodup_map_put h.clipNames_nodup) h.trackNames_nodup ?_
      intro d hd
      rcases Named.mem_of_mem_put hd with rfl | hold
      · exact hc
      · exact h.hasLengths d hold
  | addTrack t =>
      exact .of_nodup h.clipNames_nodup (Named.nodup_map_put h.trackNames_nodup) h.hasLengths
  | removeClip hremove =>
      obtain ⟨clips, hclips, rfl⟩ := Option.map_eq_some_iff.1 hremove
      have hsub := Named.sublist_of_remove? hclips
      exact .of_nodup (h.clipNames_nodup.sublist (hsub.map _)) h.trackNames_nodup
        fun c hc => h.hasLengths c (hsub.subset hc)
  | appendClip happend =>
      obtain ⟨tracks, htracks, rfl⟩ := Option.map_eq_some_iff.1 happend
      have hnames : tracks.map (·.name.val) = a.tracks.map (·.name.val) := by
        refine Named.map_of_update? ?_ htracks
        exact fun t => rfl
      refine .of_nodup h.clipNames_nodup ?_ h.hasLengths
      exact (congrArg List.Nodup hnames).mpr h.trackNames_nodup
  | removeTrack hremove =>
      obtain ⟨tracks, htracks, rfl⟩ := Option.map_eq_some_iff.1 hremove
      have hsub := Named.sublist_of_remove? htracks
      exact .of_nodup h.clipNames_nodup (h.trackNames_nodup.sublist (hsub.map _)) h.hasLengths

/-! ## Differences of edits -/

variable {name : String}

theorem differsIn_addClip (a : Arrangement) (c : Clip) :
    a.DiffersIn (a.addClip c) c.name .clips :=
  ⟨rfl, Named.differs_put c a.clips, rfl⟩

theorem differsIn_addTrack (a : Arrangement) (t : Track) :
    a.DiffersIn (a.addTrack t) t.name.val .tracks :=
  ⟨rfl, rfl, Named.differs_put t a.tracks⟩

theorem differsIn_of_removeClip? (h : a.removeClip? name = some b) :
    a.DiffersIn b name .clips := by
  obtain ⟨clips, hclips, rfl⟩ := Option.map_eq_some_iff.1 h
  exact ⟨rfl, Named.differs_of_remove? hclips, rfl⟩

theorem differsIn_of_removeTrack? (h : a.removeTrack? name = some b) :
    a.DiffersIn b name .tracks := by
  obtain ⟨tracks, htracks, rfl⟩ := Option.map_eq_some_iff.1 h
  exact ⟨rfl, rfl, Named.differs_of_remove? htracks⟩

theorem differsIn_of_appendClip? {clip : String} (h : a.appendClip? name clip = some b) :
    a.DiffersIn b name .tracks := by
  obtain ⟨tracks, htracks, rfl⟩ := Option.map_eq_some_iff.1 h
  have hkeeps : ∀ t : Track, (t.append clip).name.val = t.name.val := fun _ => rfl
  exact ⟨rfl, rfl, Named.differs_of_update? hkeeps htracks⟩

end Arrangement

end Arranger
