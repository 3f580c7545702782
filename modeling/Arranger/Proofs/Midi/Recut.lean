import Arranger.Proofs.Midi.Score
import Arranger.Proofs.Named
import Mathlib.Logic.Relation

/-!
# Other clips, the same song

Clips can be cut, merged, filled with a rest, renamed and added, and references without steps can be
inserted, without a change of the score.  An arrangement that is reached by such edits and their
reversals is rendered to the same song.
-/

namespace Arranger

open Midi
open Schema (Name)

/-! ## Edits -/

/-- The name is that of no clip, and no track refers to it. -/
structure Arrangement.IsFresh (a : Arrangement) (name : String) : Prop where
  not_mem_clipNames : name ∉ a.clipNames
  not_mem_clips : ∀ t ∈ a.tracks, .text name ∉ t.clips

/-- The track with other references in the place of every reference to a name. -/
def Track.substitute (name : Label) (refs : List Label) (t : Track) : Track :=
  { t with clips := t.clips.flatMap fun n => if n = name then refs else [n] }

def Clip.rename (name : Name) : Clip → Clip
  | .instrument c => .instrument { c with name }
  | .file c => .file { c with name }
  | .empty c => .empty { c with name }

namespace InstrumentClip

/-- What a clip plays up to one of its steps. -/
def upTo (c : InstrumentClip) (k : Nat) (name : Name) : InstrumentClip :=
  { c with name, notes := c.notes.take k, durations := c.durations.take k }

/-- What a clip plays from one of its steps on. -/
def onwards (c : InstrumentClip) (k : Nat) (name : Name) : InstrumentClip :=
  { c with name, notes := c.notes.drop k, durations := c.durations.drop k }

def ofSteps (name instrument : Name) (steps : List (Step Float)) : InstrumentClip :=
  ⟨name, instrument, steps.map Prod.fst, steps.map Prod.snd⟩

end InstrumentClip

/-- Some occurrences of a phrase of references are replaced by one reference. -/
inductive Joins (phrase : List Label) (name : Label) : List Label → List Label → Prop
  | nil : Joins phrase name [] []
  | keep {refs joined : List Label} (ref : Label) (h : Joins phrase name refs joined) :
      Joins phrase name (ref :: refs) (ref :: joined)
  | join {refs joined : List Label} (h : Joins phrase name refs joined) :
      Joins phrase name (phrase ++ refs) (name :: joined)

/-- Edits of the clips and the references that leave the steps of every track as they are. -/
inductive Recut : Arrangement → Arrangement → Prop
  /-- A clip is cut in two between steps. -/
  | cut {title : Label} (before after : List Clip) (tracks : List Track) (c : InstrumentClip)
      (k : Nat) (first second : Name) (hfound : ∀ d ∈ before, d.name ≠ c.name)
      (hne : first ≠ second)
      (hfirst : Arrangement.IsFresh ⟨title, before ++ .instrument c :: after, tracks⟩ first)
      (hsecond : Arrangement.IsFresh ⟨title, before ++ .instrument c :: after, tracks⟩ second) :
      Recut ⟨title, before ++ .instrument c :: after, tracks⟩
        ⟨title, before ++ .instrument (c.upTo k first) :: .instrument (c.onwards k second) :: after,
          tracks.map (Track.substitute (.text c.name) [.text first, .text second])⟩
  /-- A new clip plays what a phrase of references stands for, and takes its place. -/
  | merge {title : Label} {before after : List Clip} {tracks joined : List Track}
      {phrase : List Label} {steps : List (Step Float)} {name instrument : Name}
      (hsteps : Arrangement.steps? ⟨title, before ++ after, tracks⟩ phrase = some steps)
      (hname : Arrangement.IsFresh ⟨title, before ++ after, tracks⟩ name)
      (hjoined : List.Forall₂
        (fun t u : Track => u.name = t.name ∧ Joins phrase (.text name) t.clips u.clips)
        tracks joined) :
      Recut ⟨title, before ++ after, tracks⟩
        ⟨title, before ++ .instrument (.ofSteps name instrument steps) :: after, joined⟩
  /-- A silence becomes an instrument clip with one rest. -/
  | fill {title : Label} {before after : List Clip} {tracks : List Track} (c : EmptyClip)
      (instrument : Name) :
      Recut ⟨title, before ++ .empty c :: after, tracks⟩
        ⟨title, before ++ .instrument ⟨c.name, instrument, [none], [c.duration]⟩ :: after, tracks⟩
  /-- A clip is renamed together with the references to it. -/
  | rename {title : Label} {before after : List Clip} {tracks : List Track} {c : Clip} {name : Name}
      (hfound : ∀ d ∈ before, d.name ≠ c.name)
      (hname : Arrangement.IsFresh ⟨title, before ++ c :: after, tracks⟩ name) :
      Recut ⟨title, before ++ c :: after, tracks⟩
        ⟨title, before ++ c.rename name :: after,
          tracks.map (Track.substitute (.text c.name) [.text name])⟩
  /-- A clip is added to which no track refers. -/
  | add {title : Label} {before after : List Clip} {tracks : List Track} (c : Clip)
      (hunused : ∀ t ∈ tracks, .text c.name ∉ t.clips) :
      Recut ⟨title, before ++ after, tracks⟩ ⟨title, before ++ c :: after, tracks⟩
  /-- A reference to a sound file or to no clip is inserted. -/
  | insert {title : Label} {clips : List Clip} {earlier later : List Track} {track : Name}
      {refs more : List Label} (name : Label)
      (hsilent : ∀ c, Arrangement.clip? ⟨title, clips, []⟩ name = some c → ∃ d, c = .file d) :
      Recut ⟨title, clips, earlier ++ ⟨track, refs ++ more⟩ :: later⟩
        ⟨title, clips, earlier ++ ⟨track, refs ++ name :: more⟩ :: later⟩

/-! ## Edits keep the score -/

namespace Arrangement

variable {a b : Arrangement}

/-- References stand for what is put in their place. -/
theorem steps?_flatMap {refs : List Label} {f : Label → List Label}
    (h : ∀ n ∈ refs, b.steps? (f n) = a.stepsOf? n) :
    b.steps? (refs.flatMap f) = a.steps? refs := by
  induction refs with
  | nil => rfl
  | cons name rest ih =>
      have hname : b.steps? (f name) = a.stepsOf? name := h name (by simp)
      have hrest := ih fun n hn => h n (List.mem_cons_of_mem name hn)
      rw [List.flatMap_cons, steps?_append, hname, hrest, steps?]

theorem steps?_congr {refs : List Label} (h : ∀ n ∈ refs, b.stepsOf? n = a.stepsOf? n) :
    b.steps? refs = a.steps? refs := by
  have hsingle : refs.flatMap (fun n => [n]) = refs := by simp
  have hrefs := steps?_flatMap (a := a) (b := b) (f := fun n => [n])
    fun n hn => (steps?_singleton b n).trans (h n hn)
  rwa [hsingle] at hrefs

theorem steps?_joins {phrase : List Label} {name : Label} {refs joined : List Label}
    (hjoins : Joins phrase name refs joined) (hphrase : b.stepsOf? name = a.steps? phrase)
    (h : ∀ n ∈ refs, b.stepsOf? n = a.stepsOf? n) : b.steps? joined = a.steps? refs := by
  induction hjoins with
  | nil => rfl
  | keep ref _ ih =>
      rw [steps?, steps?, h ref (by simp), ih fun n hn => h n (by simp [hn])]
  | join _ ih =>
      rw [steps?, hphrase, ih fun n hn => h n (by simp [hn]), steps?_append]

theorem score_eq_of_forall₂
    (h : List.Forall₂ (fun t u : Track => u.name = t.name ∧ b.steps? u.clips = a.steps? t.clips)
      a.tracks b.tracks) : b.score = a.score := by
  unfold score
  generalize a.tracks = ts at h ⊢
  generalize b.tracks = us at h ⊢
  induction h with
  | nil => rfl
  | cons hhead _ ih => rw [List.map_cons, List.map_cons, ih, part, part, hhead.1, hhead.2]

theorem score_eq_of_steps? (htracks : b.tracks = a.tracks)
    (h : ∀ t ∈ a.tracks, ∀ n ∈ t.clips, b.stepsOf? n = a.stepsOf? n) : b.score = a.score := by
  unfold score part
  rw [htracks]
  refine List.map_congr_left fun t ht => ?_
  rw [steps?_congr (h t ht)]

theorem stepsOf?_of_clip? {name : Label} {c : Clip} (h : a.clip? name = some c) :
    a.stepsOf? name = c.steps? := by
  simp [stepsOf?, h]

theorem stepsOf?_congr {name : Label} (h : b.clip? name = a.clip? name) :
    b.stepsOf? name = a.stepsOf? name := by
  simp only [stepsOf?, h]

theorem stepsOf?_of_silent {name : Label} (h : ∀ c, a.clip? name = some c → ∃ d, c = .file d) :
    a.stepsOf? name = some [] := by
  unfold stepsOf?
  cases hclip : a.clip? name with
  | none => rfl
  | some c =>
      obtain ⟨d, rfl⟩ := h c hclip
      rfl

theorem steps?_insert {name : Label} {refs more : List Label} (h : a.stepsOf? name = some []) :
    a.steps? (refs ++ name :: more) = a.steps? (refs ++ more) := by
  have hmore : a.steps? (name :: more) = a.steps? more := by
    rw [steps?, h]
    cases a.steps? more <;> rfl
  rw [steps?_append, steps?_append, hmore]

variable {title : Label} {before after : List Clip} {tracks : List Track} {c : Clip}

theorem stepsOf?_first (hfound : ∀ d ∈ before, d.name ≠ c.name) :
    stepsOf? ⟨title, before ++ c :: after, tracks⟩ (.text c.name) = c.steps? :=
  stepsOf?_of_clip? (Named.find?_first hfound after)

theorem stepsOf?_exchange {d : Clip} {name : Label} (hname : d.name = c.name)
    (hsteps : d.steps? = c.steps?) :
    stepsOf? ⟨title, before ++ d :: after, tracks⟩ name =
      stepsOf? ⟨title, before ++ c :: after, tracks⟩ name := by
  cases name with
  | broken t => rfl
  | text s =>
      simp only [stepsOf?, clip?, Label.text?, Option.bind_some, Named.find?, List.find?_append,
        List.find?_cons, hname]
      cases before.find? (Clip.name · = s) with
      | some first => rfl
      | none => by_cases hc : c.name = s <;> simp [hc, hsteps]

theorem clip?_passes {name : Label} (parts : List Clip) (others : List Track)
    (hpassed : ∀ d ∈ parts, .text d.name ≠ name) :
    clip? ⟨title, before ++ (parts ++ after), tracks⟩ name =
      clip? ⟨title, before ++ after, others⟩ name := by
  cases name with
  | broken t => rfl
  | text s => exact Named.find?_passes parts fun d hd h => hpassed d hd (congrArg _ h)

theorem stepsOf?_passes {other : List Track} {added : Clip} {name : Label}
    (hne : .text added.name ≠ name) :
    stepsOf? ⟨title, before ++ added :: after, tracks⟩ name =
      stepsOf? ⟨title, before ++ after, other⟩ name :=
  stepsOf?_congr (clip?_passes [added] other (by simpa using hne))

theorem IsFresh.ne_of_mem {name : String} (h : IsFresh a name) {d : Clip} (hd : d ∈ a.clips) :
    d.name ≠ name := by
  rintro rfl
  exact h.not_mem_clipNames (List.mem_map_of_mem hd)

/-- A clip can be replaced by clips of fresh names that together play its steps, if the references
to it are replaced as well. -/
theorem score_replace (parts : List Clip) (hfound : ∀ d ∈ before, d.name ≠ c.name)
    (hnodup : (parts.map Clip.name).Nodup)
    (hfresh : ∀ p ∈ parts, IsFresh ⟨title, before ++ c :: after, tracks⟩ p.name)
    (hsteps : ∀ b : Arrangement, (∀ p ∈ parts, b.clip? (.text p.name) = some p) →
      b.steps? (parts.map fun p => .text p.name) = c.steps?) :
    score ⟨title, before ++ (parts ++ after),
      tracks.map (Track.substitute (.text c.name) (parts.map fun p => .text p.name))⟩ =
        score ⟨title, before ++ c :: after, tracks⟩ := by
  set a : Arrangement := ⟨title, before ++ c :: after, tracks⟩ with ha
  set b : Arrangement := ⟨title, before ++ (parts ++ after),
    tracks.map (Track.substitute (.text c.name) (parts.map fun p => .text p.name))⟩ with hb
  have hparts : ∀ p ∈ parts, b.clip? (.text p.name) = some p := by
    intro p hp
    refine Named.find?_mem_of_nodup hnodup hp fun d hd => ?_
    exact (hfresh p hp).ne_of_mem (by simp [ha, hd])
  have hclip : a.stepsOf? (.text c.name) = c.steps? := stepsOf?_first hfound
  refine score_eq_of_forall₂ ?_
  rw [hb, List.forall₂_map_right_iff, List.forall₂_same]
  intro t ht
  refine ⟨rfl, steps?_flatMap fun n hn => ?_⟩
  split_ifs with hname
  · rw [hname, hclip]
    exact hsteps b hparts
  · rw [steps?_singleton]
    refine stepsOf?_congr ?_
    have hpassed : ∀ p ∈ parts, .text p.name ≠ n := by
      rintro p hp rfl
      exact (hfresh p hp).not_mem_clips t ht hn
    have hpassed' : ∀ d ∈ [c], .text d.name ≠ n := by simpa using Ne.symm hname
    exact (clip?_passes parts tracks hpassed).trans (clip?_passes [c] tracks hpassed').symm

end Arrangement

theorem Clip.name_rename (name : Name) (c : Clip) : (c.rename name).name = name := by
  cases c <;> rfl

theorem Clip.steps?_rename (name : Name) (c : Clip) : (c.rename name).steps? = c.steps? := by
  cases c <;> rfl

namespace InstrumentClip

variable {c : InstrumentClip}

theorem steps?_of_agree (h : c.notes.length = c.durations.length) :
    (Clip.instrument c).steps? = some (c.notes.zip c.durations) :=
  if_pos h

theorem steps?_of_not_agree (h : ¬ c.notes.length = c.durations.length) :
    (Clip.instrument c).steps? = none :=
  if_neg h

/-- The parts of a clip play its steps.  The lengths of the parts agree exactly if its own do. -/
theorem steps?_upTo_onwards (c : InstrumentClip) (k : Nat) (first second : Name) :
    (do return (← (Clip.instrument (c.upTo k first)).steps?) ++
      (← (Clip.instrument (c.onwards k second)).steps?)) = (Clip.instrument c).steps? := by
  have hlengths : c.notes.length = c.durations.length ↔
      (c.notes.take k).length = (c.durations.take k).length ∧
        (c.notes.drop k).length = (c.durations.drop k).length := by
    simp only [List.length_take, List.length_drop]
    omega
  by_cases hagree : c.notes.length = c.durations.length
  · obtain ⟨htake, hdrop⟩ := hlengths.1 hagree
    have hupTo := steps?_of_agree (c := c.upTo k first) htake
    have honwards := steps?_of_agree (c := c.onwards k second) hdrop
    have hzip : (c.notes.take k).zip (c.durations.take k) ++
        (c.notes.drop k).zip (c.durations.drop k) = c.notes.zip c.durations := by
      rw [← List.zip_append htake, List.take_append_drop, List.take_append_drop]
    rw [hupTo, honwards, steps?_of_agree hagree]
    exact congrArg some hzip
  · rw [steps?_of_not_agree hagree]
    by_cases htake : (c.notes.take k).length = (c.durations.take k).length
    · have hdrop := fun h => hagree (hlengths.2 ⟨htake, h⟩)
      have honwards := steps?_of_not_agree (c := c.onwards k second) hdrop
      rw [steps?_of_agree (c := c.upTo k first) htake, honwards]
      rfl
    · rw [steps?_of_not_agree (c := c.upTo k first) htake]
      rfl

theorem steps?_ofSteps (name instrument : Name) (steps : List (Step Float)) :
    (Clip.instrument (.ofSteps name instrument steps)).steps? = some steps := by
  have hzip : (steps.map Prod.fst).zip (steps.map Prod.snd) = steps := by
    rw [← List.unzip_fst, ← List.unzip_snd, List.zip_unzip]
  simp [Clip.steps?, ofSteps, hzip]

end InstrumentClip

namespace Recut

open Arrangement

variable {a b : Arrangement}

theorem score_eq (h : Recut a b) : b.score = a.score := by
  cases h with
  | cut before after tracks c k first second hfound hne hfirst hsecond =>
      refine score_replace (c := .instrument c)
        [.instrument (c.upTo k first), .instrument (c.onwards k second)] hfound ?_ ?_ ?_
      · simpa [Clip.name, InstrumentClip.upTo, InstrumentClip.onwards, Subtype.ext_iff] using hne
      · simpa [Clip.name, InstrumentClip.upTo, InstrumentClip.onwards] using ⟨hfirst, hsecond⟩
      · intro b hparts
        have hupTo := stepsOf?_of_clip? (hparts (.instrument (c.upTo k first)) (by simp))
        have honwards := stepsOf?_of_clip? (hparts (.instrument (c.onwards k second)) (by simp))
        rw [← c.steps?_upTo_onwards k first second, ← hupTo, ← honwards, List.map_cons, steps?,
          List.map_cons, List.map_nil, steps?_singleton]
  | @merge title before after tracks joined phrase steps name instrument hsteps hname hjoined =>
      have hnew : ∀ d ∈ before, d.name ≠ name := fun d hd => hname.ne_of_mem (by simp [hd])
      have hphrase : stepsOf? ⟨title, before ++ .instrument (.ofSteps name instrument steps) :: after,
          joined⟩ (.text name) = steps? ⟨title, before ++ after, tracks⟩ phrase := by
        rw [hsteps, ← InstrumentClip.steps?_ofSteps name instrument steps]
        exact stepsOf?_first hnew
      refine score_eq_of_forall₂ ?_
      refine List.Forall₂.imp ?_ ((List.forall₂_and_left _ _).2 ⟨hname.not_mem_clips, hjoined⟩)
      rintro t u ⟨hunused, hrefs, hjoins⟩
      refine ⟨hrefs, steps?_joins hjoins hphrase fun n hn => stepsOf?_passes ?_⟩
      rintro rfl
      exact hunused hn
  | @fill title before after tracks c instrument =>
      exact score_eq_of_steps? rfl fun t _ n _ => stepsOf?_exchange rfl rfl
  | @rename title before after tracks c name hfound hname =>
      have hreplace := score_replace [c.rename name] hfound (by simp)
        (by simpa [Clip.name_rename] using hname) ?_
      · simpa [Clip.name_rename] using hreplace
      · intro b hparts
        have hclip := stepsOf?_of_clip? (hparts (c.rename name) (by simp))
        rw [List.map_cons, List.map_nil, steps?_singleton, hclip, Clip.steps?_rename]
  | @add title before after tracks c hunused =>
      refine score_eq_of_steps? rfl fun t ht n hn => stepsOf?_passes ?_
      rintro rfl
      exact hunused t ht hn
  | @insert title clips earlier later track refs more name hsilent =>
      have hpool : part ⟨title, clips, earlier ++ ⟨track, refs ++ name :: more⟩ :: later⟩ =
          part ⟨title, clips, earlier ++ ⟨track, refs ++ more⟩ :: later⟩ :=
        funext fun t => Prod.ext rfl (steps?_congr fun n _ => stepsOf?_congr rfl)
      have hname := stepsOf?_of_silent
        (a := ⟨title, clips, earlier ++ ⟨track, refs ++ more⟩ :: later⟩) hsilent
      simp only [score, List.map_append, List.map_cons, hpool]
      simp only [part, steps?_insert hname]

theorem score_eq_of_eqvGen (h : Relation.EqvGen Recut a b) : b.score = a.score := by
  induction h with
  | rel _ _ hedit => exact hedit.score_eq
  | refl _ => rfl
  | symm _ _ _ ih => exact ih.symm
  | trans _ _ _ _ _ hfirst hsecond => exact hsecond.trans hfirst

end Recut

namespace Midi

variable {a : Arrangement} {beatsPerMinute : Decimal.Number} {ticksPerBeat : Int} {song : Song}

/-- In a song every track of the arrangement has a track of its own, which plays the steps of the
track one after another from the beat zero on.  What has the same steps is rendered to the same
song, and so is what the clips are recut to. -/
theorem render_plays_steps (h : (render a beatsPerMinute ticksPerBeat).result = .ok song) :
    song.tracks.length = a.tracks.length + 1 ∧
      (∀ (k : Nat) (t : Track), a.tracks[k]? = some t →
        ∃ steps pieces, a.steps? t.clips = some steps ∧
          List.Forall₂ (Sounds ticksPerBeat (k % 16)) (spans 0.0 steps) pieces ∧
            song.tracks[k + 1]? = some (track t.name pieces.flatten)) ∧
      (∀ b : Arrangement, b.score = a.score →
        (render b beatsPerMinute ticksPerBeat).result = .ok song) ∧
      ∀ b, Relation.EqvGen Recut a b → (render b beatsPerMinute ticksPerBeat).result = .ok song := by
  obtain ⟨message, tracks, -, htracks, rfl⟩ := result_render_eq_ok_iff.1 h
  refine ⟨?_, ?_, fun b hscore => result_render_of_score_eq hscore h, ?_⟩
  · simp [htracks.length_eq, Arrangement.score]
  · intro k t ht
    have hpart : a.score[k]? = some (a.part t) := by simp [Arrangement.score, ht]
    obtain ⟨messages, hmessages, steps, pieces, hsteps, hpieces, rfl⟩ := htracks.getElem? hpart
    rw [Nat.zero_add] at hpieces
    exact ⟨steps, pieces, hsteps, hpieces, hmessages⟩
  · intro b hedits
    exact result_render_of_score_eq (Recut.score_eq_of_eqvGen hedits) h

theorem gap_ne_empty : "gap" ≠ "" := by decide

/-- A motif is played, and after a silence it is played again. -/
def sampleTune : Arrangement where
  name := "tune"
  clips :=
    [.instrument ⟨⟨"motif", by decide⟩, ⟨"piano", by decide⟩, [some [60], none, some [64, 67]],
      [1.0, 0.5, 1.5]⟩,
    .empty ⟨⟨"gap", gap_ne_empty⟩, 2.0⟩]
  tracks := [⟨⟨"lead", by decide⟩, ["motif", "gap", "motif"]⟩]

def cutTune : Arrangement where
  name := "tune"
  clips :=
    [.instrument ⟨⟨"opening", by decide⟩, ⟨"piano", by decide⟩, [some [60], none], [1.0, 0.5]⟩,
    .instrument ⟨⟨"close", by decide⟩, ⟨"piano", by decide⟩, [some [64, 67]], [1.5]⟩,
    .empty ⟨⟨"gap", gap_ne_empty⟩, 2.0⟩]
  tracks := [⟨⟨"lead", by decide⟩, ["opening", "close", "gap", "opening", "close"]⟩]

theorem recut_cutTune : Recut sampleTune cutTune :=
  .cut [] [.empty ⟨⟨"gap", by decide⟩, 2.0⟩] [⟨⟨"lead", by decide⟩, ["motif", "gap", "motif"]⟩]
    ⟨⟨"motif", by decide⟩, ⟨"piano", by decide⟩, [some [60], none, some [64, 67]], [1.0, 0.5, 1.5]⟩
    2 ⟨"opening", by decide⟩ ⟨"close", by decide⟩ (by simp) (by decide) ⟨by decide, by decide⟩
    ⟨by decide, by decide⟩

theorem render_plays_steps_sampleTune :
    ∃ song, (render sampleTune (.whole 60) 480).result = .ok song ∧ song.tracks.length = 2 ∧
      (render cutTune (.whole 60) 480).result = .ok song := by
  have hreturns : (render sampleTune (.whole 60) 480).result.toOption.isSome = true := by
    decide +kernel
  obtain ⟨song, hsong⟩ : ∃ song, (render sampleTune (.whole 60) 480).result = .ok song := by
    cases h : (render sampleTune (.whole 60) 480).result with
    | ok song => exact ⟨song, rfl⟩
    | error e => simp [h, Except.toOption] at hreturns
  obtain ⟨hlength, -, -, hrecut⟩ := render_plays_steps hsong
  exact ⟨song, hsong, hlength, hrecut cutTune (.rel _ _ recut_cutTune)⟩

end Midi

end Arranger
