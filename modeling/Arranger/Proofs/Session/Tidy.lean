import Arranger.Proofs.Diagnostics.Duplicates
import Arranger.Proofs.Program.Refusal
import Arranger.Proofs.Session.Invariant

/-!
# Sessions that keep everything tidy

A session that begins without files has tidy arrangements only, as working copies and in files,
whatever the tools are called with.  What is read from a file is what a save has written into it,
and the tools give a clip a duration for each group.
-/

namespace Arranger.Session

open Library (IsEnding fileSuffix not_isEnding_of_suffix)

variable {d part : String}

/-! ## Tidy workspaces -/

/-- What a save writes of a tidy arrangement, or an output. -/
inductive IsTidyFile (part : String) : Content → Prop where
  | saved {a : Arrangement} (ha : a.IsTidy) : IsTidyFile part (.text (Yaml.write a.datum))
  | output {content : Content} (hending : IsEnding part) : IsTidyFile part content

/-- Working copies are tidy, and files hold tidy arrangements or outputs. -/
def tidyRule : Rule := ⟨Arrangement.IsTidy, IsTidyFile⟩

theorem IsTidyFile.holds
    {content : Content} (h : IsTidyFile part content) (hpart : fileSuffix.toList <:+ part.toList) :
    ∃ a, Holds content a ∧ a.IsTidy := by
  cases h with
  | saved ha => exact ⟨_, holds_written _, ha⟩
  | output hending => exact absurd hending (not_isEnding_of_suffix hpart)

theorem isKept_tidyRule : tidyRule.IsKept where
  new := Arrangement.isTidy_new
  rename := fun name ha => ha.rename name
  edit := fun ha hedited => ha.edited hedited
  read := by
    intro name content a hfile hholds
    have hsuffix := List.isSuffixOf_iff_suffix.1 (Library.isSuffixOf_fileName name)
    obtain ⟨b, hwritten, hb⟩ := IsTidyFile.holds hfile hsuffix
    rw [hholds.unique hwritten]
    exact hb
  save := fun ha _ => .saved ha
  output := fun _ hending => .output hending

/-! ## Reached states -/

/-- A session that begins in an empty directory reaches the state. -/
def IsReached (d : String) (s : State) : Prop :=
  ∃ steps, (∀ step ∈ steps, step.isInside = true) ∧ s = (run (start d) steps).1

/-- Whatever is done in a session, its workspace stays tidy. -/
theorem IsReached.sound {s : State} (h : IsReached d s) :
    Sound d (start d).workspace.files tidyRule s.workspace := by
  obtain ⟨steps, hsteps, rfl⟩ := h
  have hopened : Sound d (start d).workspace.files tidyRule (start d).workspace := by
    refine Sound.opened (isOpen_start d) fun part content stamp hfile => ?_
    rw [at?_start d (by simp [home]) (by simp [home])] at hfile
    simp at hfile
  exact hopened.run (isOpen_start d) isKept_tidyRule hsteps

/-- In every session that begins in an empty directory, all working copies and all files of
arrangements are tidy, and so is what a validation reports on.  A report on what is tidy never tells
of lengths, and it tells of as many repeated names as there are tracks named like a clip; with
placeholders allowed, there is always a program. -/
theorem reached_isTidy {s : State} (h : IsReached d s) :
    (∀ name a, s.workspace.workingCopy? name = some a → a.IsTidy) ∧
      (∀ part content stamp, fileSuffix.toList <:+ part.toList →
        s.workspace.files.at? (home d ++ [part]) = some (.file content stamp) →
          ∃ a, Holds content a ∧ a.IsTidy) ∧
      (∀ args, ((Step.call "sclang_validate" args).run s).2.IsSuccess →
        ∃ a : Arrangement, a.IsTidy ∧ ((Step.call "sclang_validate" args).run s).2.value =
          Reply.success (Tool.reportFields a.report)) ∧
      ∀ a : Arrangement, a.IsTidy →
        "LENGTH_MISMATCH" ∉ a.report.codes ∧
          a.duplicates = a.tracks.countP (fun t => t.name.val ∈ a.clipNames) ∧
          ∃ text, (Program.source true a).result = .ok text := by
  have hsound := h.sound
  refine ⟨hsound.copies, ?_, ?_, ?_⟩
  · intro part content stamp hpart hfile
    exact (hsound.filing.obeyed part content stamp hfile).holds hpart
  · intro args hsuccess
    have hruns : Action.Runs (Library.Effect none (tick s.workspace)) (Tool.validate args)
        (tick s.workspace) fun reply v => Tool.Reports args (tick s.workspace) v reply :=
      Tool.validate_runs
    obtain ⟨n, a, -, hasked, hreply⟩ := hruns.answers _ (ok_of_isSuccess hsuccess)
    exact ⟨a, (hsound.tick.asked (isOpen_start d) isKept_tidyRule hasked).2.1, hreply⟩
  · intro a ha
    exact ⟨ha.lengthsCode_not_mem, ha.duplicates_eq,
      Program.exists_source_of_hasLengths ha.hasLengths⟩

/-- A clip is replaced, and a track is named like it. -/
def sampleSteps : List Step :=
  [.call "sclang_create_arrangement" ⟨[(.text "name", .text "a b")]⟩,
    .call "sclang_add_instrument_clip" ⟨[(.text "arrangement", .text "a b"), (.text "name", .text "x"),
      (.text "notes", .texts ["C4", "rest"]), (.text "durations", .texts ["1", "0.5"])]⟩,
    .call "sclang_add_file_clip" ⟨[(.text "arrangement", .text "a b"), (.text "name", .text "y"),
      (.text "path", .text "/z.wav")]⟩,
    .call "sclang_add_instrument_clip" ⟨[(.text "arrangement", .text "a b"), (.text "name", .text "x"),
      (.text "notes", .texts ["60,64"]), (.text "durations", .texts ["Q"])]⟩,
    .call "sclang_add_track" ⟨[(.text "arrangement", .text "a b"), (.text "name", .text "x"),
      (.text "clips", .texts ["x", "y"])]⟩,
    .call "sclang_save_arrangement" ⟨[(.text "name", .text "a b")]⟩]

def sampleState : State := (run (start "d") sampleSteps).1

theorem reached_isTidy_sampleState :
    IsReached "d" sampleState ∧
      (∃ a, sampleState.workspace.workingCopy? "a b" = some a ∧ a.IsTidy ∧ a.clips.length = 2 ∧
        a.duplicates = 1) ∧
      ∃ content stamp a, sampleState.workspace.files.at? (home "d" ++ ["a_b.arrangement.yaml"]) =
        some (.file content stamp) ∧ Holds content a ∧ a.IsTidy := by
  have hreached : IsReached "d" sampleState := ⟨sampleSteps, by decide, rfl⟩
  obtain ⟨hcopies, hfiles, -, hreports⟩ := reached_isTidy hreached
  refine ⟨hreached, ?_, ?_⟩
  · have hshown : ((sampleState.workspace.workingCopy? "a b").map fun a =>
        (a.clips.length, a.tracks.countP (fun t => t.name.val ∈ a.clipNames))) = some (2, 1) := by
      decide +kernel
    obtain ⟨a, ha, hcounts⟩ := Option.map_eq_some_iff.1 hshown
    have htidy := hcopies "a b" a ha
    obtain ⟨hclips, htracks⟩ := Prod.mk.inj hcounts
    exact ⟨a, ha, htidy, hclips, (hreports a htidy).2.1.trans htracks⟩
  · have hsome : (sampleState.workspace.files.at?
        (home "d" ++ ["a_b.arrangement.yaml"])).isSome = true := by decide +kernel
    have hne : sampleState.workspace.files.at? (home "d" ++ ["a_b.arrangement.yaml"]) ≠
        some .directory := by decide +kernel
    obtain ⟨entry, hentry⟩ := Option.isSome_iff_exists.1 hsome
    cases entry with
    | directory => exact absurd hentry hne
    | file content stamp =>
        obtain ⟨a, hholds, ha⟩ := hfiles _ content stamp (by decide +kernel) hentry
        exact ⟨content, stamp, a, hentry, hholds, ha⟩

end Arranger.Session
