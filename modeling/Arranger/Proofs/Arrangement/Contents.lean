import Arranger.Proofs.Arrangement.Edits
import Arranger.Proofs.OrderedMap

/-!
# An arrangement as two maps

In an arrangement without repeated names the clips and the tracks are maps that keep the order of
their names.  Every change of the arrangement is a change of one of the maps, however many went
before it.
-/

namespace Arranger

/-! ## Changes -/

/-- What can be done to the clips and tracks of an arrangement. -/
inductive Change where
  | addClip (clip : Clip)
  | removeClip (name : String)
  | addTrack (track : Track)
  | removeTrack (name : String)
  | appendClip (track : String) (clip : Label)

namespace Change

/-- The list that is changed. -/
def pool : Change → Pool
  | addClip _ | removeClip _ => .clips
  | addTrack _ | removeTrack _ | appendClip _ _ => .tracks

/-- The name in the list. -/
def name : Change → String
  | addClip clip => clip.name
  | removeClip name => name
  | addTrack track => track.name.val
  | removeTrack name => name
  | appendClip track _ => track

/-- The changed arrangement; none if there is nothing to remove, or no track to append to. -/
def result? : Change → Arrangement → Option Arrangement
  | addClip clip, a => some (a.addClip clip)
  | removeClip name, a => a.removeClip? name
  | addTrack track, a => some (a.addTrack track)
  | removeTrack name, a => a.removeTrack? name
  | appendClip track clip, a => a.appendClip? track clip

end Change

namespace Arrangement

/-- Makes a change if it can be made, and answers whether it was. -/
def change (a : Arrangement) (c : Change) : Arrangement × Bool :=
  ((c.result? a).getD a, (c.result? a).isSome)

/-- Makes one change after another. -/
def changeAll (a : Arrangement) : List Change → Arrangement × List Bool
  | [] => (a, [])
  | c :: rest =>
      let (a, answer) := a.change c
      let (a, answers) := a.changeAll rest
      (a, answer :: answers)

/-- No two clips have one name, and no two tracks. -/
structure HasDistinctNames (a : Arrangement) : Prop where
  clips : a.clipNames.Nodup
  tracks : a.trackNames.Nodup

end Arrangement

/-! ## Maps -/

/-- A map of clips and a map of tracks. -/
@[ext]
structure Contents where
  clips : OrderedMap Clip
  tracks : OrderedMap Track

namespace Contents

/-- A change of one of the maps, with the answer whether there was something to change. -/
def change (m : Contents) : Change → Contents × Bool
  | .addClip clip => ({ m with clips := m.clips.put clip.name clip }, true)
  | .removeClip name => ({ m with clips := m.clips.remove name }, m.clips.has name)
  | .addTrack track => ({ m with tracks := m.tracks.put track.name.val track }, true)
  | .removeTrack name => ({ m with tracks := m.tracks.remove name }, m.tracks.has name)
  | .appendClip track clip =>
      ({ m with tracks := m.tracks.update track fun t => { t with clips := t.clips ++ [clip] } },
        m.tracks.has track)

def changeAll (m : Contents) : List Change → Contents × List Bool
  | [] => (m, [])
  | c :: rest =>
      let (m, answer) := m.change c
      let (m, answers) := m.changeAll rest
      (m, answer :: answers)

end Contents

namespace Arrangement

variable {a b : Arrangement} {c : Change}

def contents (a : Arrangement) (h : a.HasDistinctNames) : Contents where
  clips := .ofList Clip.name a.clips h.clips
  tracks := .ofList (·.name.val) a.tracks h.tracks

/-! ## One change -/

/-- The change of the arrangement is that of its maps. -/
def Follows (a : Arrangement) (h : a.HasDistinctNames) (c : Change) : Prop :=
  ∃ hb : (a.change c).1.HasDistinctNames,
    ((a.change c).1.contents hb, (a.change c).2) = (a.contents h).change c

variable (h : a.HasDistinctNames)

theorem follows_of_some
    (hb : b.HasDistinctNames) (hresult : c.result? a = some b)
    (hchange : (a.contents h).change c = (b.contents hb, true)) : a.Follows h c := by
  have hmade : a.change c = (b, true) := by rw [change, hresult]; rfl
  rw [Follows, hmade, hchange]
  exact ⟨hb, rfl⟩

theorem follows_of_none
    (hresult : c.result? a = none)
    (hchange : (a.contents h).change c = (a.contents h, false)) : a.Follows h c := by
  have hkept : a.change c = (a, false) := by rw [change, hresult]; rfl
  rw [Follows, hkept, hchange]
  exact ⟨h, rfl⟩

/-- To remove an element from one of the lists is to remove it from the map of the list.
`holding` puts another list in its place, and `among` another map. -/
theorem follows_removal
    {α : Type} {nameOf : α → String} {xs : List α} (hxs : (xs.map nameOf).Nodup) (name : String)
    (holding : List α → Arrangement) (among : OrderedMap α → Contents)
    (hself : a.contents h = among (.ofList nameOf xs hxs))
    (hcontents : ∀ ys hys, ∃ hb : (holding ys).HasDistinctNames,
      (holding ys).contents hb = among (.ofList nameOf ys hys))
    (hresult : c.result? a = (Named.remove? nameOf name xs).map holding)
    (hchange : (a.contents h).change c =
      (among ((OrderedMap.ofList nameOf xs hxs).remove name),
        (OrderedMap.ofList nameOf xs hxs).has name)) : a.Follows h c := by
  rcases OrderedMap.ofList_remove? hxs name with
    ⟨hremove, hhas⟩ | ⟨ys, hys, hremove, hhas, hmap⟩
  · refine follows_of_none h ?_ ?_
    · rw [hresult, hremove, Option.map_none]
    · rw [hchange, OrderedMap.remove_of_not_has hhas, hhas, ← hself]
  · obtain ⟨hb, hmaps⟩ := hcontents ys hys
    refine follows_of_some h hb ?_ ?_
    · rw [hresult, hremove, Option.map_some]
    · rw [hchange, hhas, hmaps, hmap]

theorem follows_appendClip (track : String) (clip : Label) : a.Follows h (.appendClip track clip) := by
  have hkeeps : ∀ t : Track, (t.append clip).name.val = t.name.val := fun _ => rfl
  rcases OrderedMap.ofList_update? h.tracks track hkeeps with
    ⟨hupdate, hhas⟩ | ⟨tracks, htracks, hupdate, hhas, hmap⟩
  · refine follows_of_none h ?_ ?_
    · rw [Change.result?, appendClip?, hupdate, Option.map_none]
    · exact Prod.ext (Contents.ext rfl (OrderedMap.update_of_not_has _ hhas)) hhas
  · refine follows_of_some h (b := { a with tracks }) ⟨h.clips, htracks⟩ ?_ ?_
    · rw [Change.result?, appendClip?, hupdate, Option.map_some]
    · exact Prod.ext (Contents.ext rfl hmap.symm) hhas

/-- Every change of an arrangement without repeated names leaves it so and is one of its maps. -/
theorem follows (c : Change) : a.Follows h c := by
  cases c with
  | addClip clip =>
      exact follows_of_some h (b := a.addClip clip) ⟨Named.nodup_map_put h.clips, h.tracks⟩ rfl
        (Prod.ext (Contents.ext (OrderedMap.ofList_put h.clips clip _).symm rfl) rfl)
  | removeClip name =>
      exact follows_removal h h.clips name (fun clips => { a with clips })
        (fun clips => { a.contents h with clips }) rfl (fun _ hys => ⟨⟨hys, h.tracks⟩, rfl⟩) rfl rfl
  | addTrack track =>
      exact follows_of_some h (b := a.addTrack track) ⟨h.clips, Named.nodup_map_put h.tracks⟩ rfl
        (Prod.ext (Contents.ext rfl (OrderedMap.ofList_put h.tracks track _).symm) rfl)
  | removeTrack name =>
      exact follows_removal h h.tracks name (fun tracks => { a with tracks })
        (fun tracks => { a.contents h with tracks }) rfl (fun _ hys => ⟨⟨h.clips, hys⟩, rfl⟩) rfl rfl
  | appendClip track clip => exact follows_appendClip h track clip

theorem change_of_not_made (h : (a.change c).2 = false) : (a.change c).1 = a := by
  have hnone : c.result? a = none := Option.isNone_iff_eq_none.1 (Option.isSome_eq_false_iff.1 h)
  rw [change, hnone]
  rfl

theorem tracks_of_change (hpool : c.pool = .clips) : (a.change c).1.tracks = a.tracks := by
  cases c with
  | addClip clip => rfl
  | removeClip name =>
      cases hremove : Named.remove? Clip.name name a.clips <;>
        simp [change, Change.result?, removeClip?, hremove]
  | addTrack | removeTrack | appendClip => cases hpool

theorem clips_of_change (hpool : c.pool = .tracks) : (a.change c).1.clips = a.clips := by
  cases c with
  | addClip | removeClip => cases hpool
  | addTrack track => rfl
  | removeTrack name =>
      cases hremove : Named.remove? (·.name.val) name a.tracks <;>
        simp [change, Change.result?, removeTrack?, hremove]
  | appendClip track clip =>
      cases hupdate : Named.update? (·.name.val) track (·.append clip) a.tracks <;>
        simp [change, Change.result?, appendClip?, hupdate]

/-! ## Any changes -/

/-- The whole history follows, by the one change after the other. -/
theorem contents_changeAll (changes : List Change) :
    ∃ hb : (a.changeAll changes).1.HasDistinctNames,
      ((a.changeAll changes).1.contents hb, (a.changeAll changes).2) =
        (a.contents h).changeAll changes := by
  induction changes generalizing a with
  | nil => exact ⟨h, rfl⟩
  | cons c rest ih =>
      obtain ⟨hnext, hstep⟩ := follows h c
      obtain ⟨hb, hrest⟩ := ih hnext
      refine ⟨hb, ?_⟩
      simp only [Contents.changeAll, ← hstep, ← hrest]
      rfl

/-- What is listed and what is found in an arrangement is what maps hold. -/
structure Shows (b : Arrangement) (m : Contents) : Prop where
  distinct : b.HasDistinctNames
  clipNames_eq : b.clipNames = m.clips.keys
  trackNames_eq : b.trackNames = m.tracks.keys
  names_eq : b.names = m.clips.keys ++ m.tracks.keys
  clip?_eq : ∀ name : String, b.clip? name = m.clips.value? name
  track?_eq : ∀ name, b.track? name = m.tracks.value? name

theorem shows_contents : a.Shows (a.contents h) :=
  ⟨h, rfl, rfl, rfl, fun _ => rfl, fun _ => rfl⟩

/-- The clips and the tracks of an arrangement without repeated names are two maps that keep the
order of their keys.  Whatever is added, removed and appended in whatever order, names stay
distinct, the arrangement shows what the maps hold then, and every answer tells whether there was
something to change.  After any changes, a change of clips leaves the tracks as they are, with
their references, and a change of tracks the clips. -/
theorem changes_act_on_maps (changes : List Change) :
    let b := (a.changeAll changes).1
    a.Shows (a.contents h) ∧
      b.Shows ((a.contents h).changeAll changes).1 ∧
      (a.changeAll changes).2 = ((a.contents h).changeAll changes).2 ∧
      ∀ c : Change, (c.pool = .clips → (b.change c).1.tracks = b.tracks) ∧
        (c.pool = .tracks → (b.change c).1.clips = b.clips) := by
  intro b
  obtain ⟨hb, hall⟩ := contents_changeAll h changes
  obtain ⟨hcontents, hanswers⟩ := Prod.ext_iff.1 hall
  have hshows : b.Shows ((a.contents h).changeAll changes).1 := hcontents ▸ shows_contents hb
  exact ⟨shows_contents h, hshows, hanswers, fun _ => ⟨tracks_of_change, clips_of_change⟩⟩

/-- A clip is replaced in its place, another one is taken away and comes back at the end, and one is
missed; of two tracks the first gets a reference and the second goes. -/
def sampleChanges : List Change :=
  let take (name path : Schema.Name) : Change := .addClip (.file ⟨name, path⟩)
  [take ⟨"snare", by decide⟩ ⟨"dry.wav", by decide⟩,
    take ⟨"shaker", by decide⟩ ⟨"soft.wav", by decide⟩,
    .addTrack ⟨⟨"groove", by decide⟩, ["snare"]⟩, .addTrack ⟨⟨"fill", by decide⟩, []⟩,
    take ⟨"shaker", by decide⟩ ⟨"loud.wav", by decide⟩, .removeClip "snare", .removeClip "snare",
    take ⟨"snare", by decide⟩ ⟨"wet.wav", by decide⟩, .appendClip "groove" "shaker",
    .appendClip "drone" "shaker", .removeTrack "fill"]

theorem changes_act_on_maps_sampleChanges :
    ∃ h : (new "tune").HasDistinctNames,
      let m := (((new "tune").contents h).changeAll sampleChanges).1
      ((new "tune").changeAll sampleChanges).1.Shows m ∧
        m.clips.keys = ["shaker", "snare"] ∧ m.tracks.keys = ["groove"] ∧
          m.tracks.value? "groove" = some ⟨⟨"groove", by decide⟩, ["snare", "shaker"]⟩ ∧
            (((new "tune").contents h).changeAll sampleChanges).2 =
              [true, true, true, true, true, true, false, true, true, false, true] := by
  have h : (new "tune").HasDistinctNames := ⟨List.nodup_nil, List.nodup_nil⟩
  obtain ⟨-, hshows, hanswers, -⟩ := changes_act_on_maps h sampleChanges
  have hclips : ((new "tune").changeAll sampleChanges).1.clipNames = ["shaker", "snare"] := by
    decide
  have htracks : ((new "tune").changeAll sampleChanges).1.trackNames = ["groove"] := by decide
  have htrack : ((new "tune").changeAll sampleChanges).1.track? "groove" =
      some ⟨⟨"groove", by decide⟩, ["snare", "shaker"]⟩ := by decide
  refine ⟨h, hshows, ?_, ?_, ?_, ?_⟩
  · rw [← hshows.clipNames_eq, hclips]
  · rw [← hshows.trackNames_eq, htracks]
  · rw [← hshows.track?_eq, htrack]
  · rw [← hanswers]
    decide

end Arrangement

end Arranger
