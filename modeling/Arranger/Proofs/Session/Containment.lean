import Arranger.Proofs.Files.Resolution
import Arranger.Proofs.Session.Invariant

/-!
# Files that a session writes

The file of an arrangement lies directly in the directory of arrangements, whatever its name is.
The name of an output is joined to the output directory as it is: its file lies inside if the name
stays inside, and otherwise wherever the name leads.  No other call touches any file.
-/

namespace Arranger

open Library (Asked Deletes Effect Saves Writes pathOf)
open Place (IsBelow)

variable {w u v : Workspace} {a : Arrangement} {n tool suffix : String} {args : Arguments}
  {place : Place}

/-! ## Directories of a workspace -/

/-- The same directories, whatever lies in them. -/
structure SameDirectories (w v : Workspace) : Prop where
  arrangements_eq : v.arrangements = w.arrangements
  output_eq : v.output = w.output

theorem SameDirectories.refl (w : Workspace) : SameDirectories w w := ⟨rfl, rfl⟩

theorem SameDirectories.trans (hwu : SameDirectories w u) (huv : SameDirectories u v) :
    SameDirectories w v :=
  ⟨huv.arrangements_eq.trans hwu.arrangements_eq, huv.output_eq.trans hwu.output_eq⟩

theorem Library.Asked.sameDirectories (h : Asked n w v a) : SameDirectories w v := by
  cases h with
  | held _ => exact .refl w
  | loaded _ _ _ => exact ⟨rfl, rfl⟩

theorem Library.Effect.sameDirectories {target : Option Label} (h : Effect target w v) :
    SameDirectories w v := by
  cases h with
  | unchanged => exact .refl w
  | asked hasked => exact hasked.sameDirectories
  | created _ => exact ⟨rfl, rfl⟩
  | duplicated hasked _ => exact hasked.sameDirectories.trans ⟨rfl, rfl⟩
  | edited hasked _ _ => exact hasked.sameDirectories.trans ⟨rfl, rfl⟩
  | prepared hasked _ _ => exact hasked.sameDirectories.trans ⟨rfl, rfl⟩
  | saved hasked _ _ _ => exact hasked.sameDirectories.trans ⟨rfl, rfl⟩
  | exported hasked _ _ _ _ => exact hasked.sameDirectories.trans ⟨rfl, rfl⟩
  | dropped _ => exact ⟨rfl, rfl⟩
  | deleted _ _ => exact ⟨rfl, rfl⟩

/-! ## The file of one call -/

theorem Library.isBelow_pathOf (w : Workspace) (n : String) :
    IsBelow w.arrangements.resolve (pathOf w n).resolve := by
  have hname : fileName n ≠ ".." := fileName_ne_of_short (by decide) n
  rw [pathOf_eq]
  change IsBelow _ (Place.resolve _ (w.arrangements.parts ++ [fileName n]))
  rw [Place.resolve_concat hname]
  exact Place.isBelow_concat _ _

theorem Library.Saves.sameFilesBut (h : Saves a w v) :
    ∃ n, a.name = .text n ∧ FileTree.SameFilesBut (pathOf w n).resolve w.files v.files := by
  obtain ⟨n, made, files, hname, hmake, hwrite, rfl⟩ := h
  have hmade := (FileTree.grows_makeDirectories hmake).sameFiles
  exact ⟨n, hname, (hmade.but _).trans (FileTree.sameFilesBut_resolve_of_write hwrite)⟩

theorem Library.Deletes.sameFilesBut (h : Deletes n w v) :
    FileTree.SameFilesBut (pathOf w n).resolve w.files v.files := by
  rcases h with ⟨-, rfl⟩ | ⟨files, hremove, rfl⟩
  · exact (FileTree.SameFiles.refl _).but _
  · exact FileTree.sameFilesBut_resolve_of_remove hremove

theorem Library.Writes.file_resolve
    {directory p : Path} {content : Content} (h : Writes directory p content w v) :
    v.files.file? p.resolve = some (content, w.stamp) ∧
      FileTree.SameFilesBut p.resolve w.files v.files := by
  obtain ⟨target, hlocate, hfile, hothers⟩ := h.sameFilesBut
  rw [← FileTree.eq_resolve_of_locate hlocate]
  exact ⟨hfile, hothers⟩

/-- A save or a deletion changes files in the directory of arrangements only. -/
def Tool.ChangesArrangements (w v : Workspace) : Prop :=
  FileTree.ChangesBelow w.arrangements.resolve w.files v.files

theorem Tool.changesArrangements_of_asked
    (hasked : Asked n w u a) (h : ChangesArrangements u v) : ChangesArrangements w v := by
  unfold ChangesArrangements at h ⊢
  rwa [hasked.sameDirectories.arrangements_eq, hasked.files_eq] at h

theorem Tool.store_call_runs (htool : tool ∈ storeTools) :
    Action.Runs (ChangesArrangements w) (Session.toolAction tool args) w fun _ v =>
      ChangesArrangements w v := by
  rcases List.mem_pair.1 htool with rfl | rfl
  · refine (saveArrangement_runs.weaken ?_).mono ?_
    · intro v hprepares
      exact hprepares.sameFiles.changesBelow _
    · rintro _ v ⟨n, u, a, -, hasked, hsaves⟩
      apply changesArrangements_of_asked hasked
      obtain ⟨saved, -, hothers⟩ := hsaves.sameFilesBut
      exact hothers.changesBelow (Library.isBelow_pathOf u saved)
  · refine (deleteArrangement_runs.weaken ?_).mono ?_
    · intro v hquiet
      unfold ChangesArrangements
      rw [hquiet.files_eq]
      exact (FileTree.SameFiles.refl _).changesBelow _
    · rintro _ v ⟨n, -, hdeletes⟩
      exact hdeletes.sameFilesBut.changesBelow (Library.isBelow_pathOf w n)

/-- An export writes the file that its output name resolves to, and changes no other one. -/
theorem Tool.WritesOutput.file_resolve (h : WritesOutput args suffix w v) :
    ∃ n content, Arguments.nameOf (args.get "arrangement") = .ok n ∧
      v.files.file? (outputPath args suffix n w).resolve = some (content, w.stamp) ∧
        FileTree.SameFilesBut (outputPath args suffix n w).resolve w.files v.files := by
  obtain ⟨hname, hasked, -, -, hwrites⟩ := h
  obtain ⟨hfile, hothers⟩ := hwrites.file_resolve
  rw [outputPath, hasked.output_eq, ← outputPath] at hfile hothers
  rw [hasked.stamp_eq] at hfile
  rw [hasked.files_eq] at hothers
  exact ⟨_, _, hname, hfile, hothers⟩

/-- A file that a call changes is in the directory of arrangements, or it is the output. -/
inductive Tool.Touches (tool : String) (args : Arguments) (w : Workspace) (place : Place) :
    Prop where
  | stored (htool : tool ∈ storeTools) (hplace : IsBelow w.arrangements.resolve place)
  | exported {suffix n : String} (htool : exportSuffix? tool = some suffix)
      (hname : Arguments.nameOf (args.get "arrangement") = .ok n)
      (hplace : place = (outputPath args suffix n w).resolve)

theorem Tool.touches_of_changed
    (hchanged : (Session.toolAction tool args w).1.files.file? place ≠ w.files.file? place) :
    Touches tool args w place := by
  by_cases hstore : tool ∈ storeTools
  · exact .stored hstore ((store_call_runs hstore).leaves place hchanged)
  · cases hexport : exportSuffix? tool with
    | none =>
        have hfiles : (Session.toolAction tool args w).1.files = w.files :=
          (quiet_call_runs hstore hexport).leaves.files_eq
        rw [hfiles] at hchanged
        exact absurd rfl hchanged
    | some suffix =>
        have hruns : Action.Runs _ (Session.toolAction tool args) w _ := export_call_runs hexport
        rcases (hruns.mono fun _ _ => Or.inr).leaves with hprepares | hwrites
        · exact absurd (hprepares.sameFiles place) hchanged
        · obtain ⟨n, content, hname, -, hothers⟩ := hwrites.file_resolve
          refine .exported hexport hname ?_
          by_contra hother
          exact hchanged (hothers place hother)

/-! ## Names that stay inside -/

/-- A relative name that ends as an output does and stays inside leads below the directory. -/
theorem Path.isBelow_resolve_join
    {ending name : String} (hslash : '/' ∉ ending.toList) (hlong : 2 < ending.toList.length)
    (h : Path.staysInside (name ++ ending)) (p : Path) :
    IsBelow p.resolve (p.join (name ++ ending)).resolve := by
  rw [staysInside, Bool.and_eq_true, bne_iff_ne] at h
  obtain ⟨hrelative, hstays⟩ := h
  obtain ⟨front, part, hparts, hsuffix⟩ := partsOf_append hslash hlong name
  have hpart : part ≠ ".." := by
    rintro rfl
    have hle : ending.toList.length ≤ 2 := hsuffix.length_le
    omega
  rw [resolve_join_of_relative hrelative, hparts]
  rw [hparts] at hstays
  exact Place.isBelow_resolve_concat hpart hstays

theorem Tool.isBelow_outputPath
    (htool : exportSuffix? tool = some suffix)
    (hstays : Path.staysInside (outputName args n ++ suffix)) (w : Workspace) :
    IsBelow w.output.resolve (outputPath args suffix n w).resolve := by
  unfold exportSuffix? at htool
  split at htool <;> cases htool
  · exact Path.isBelow_resolve_join (by decide) (by decide) hstays w.output
  · exact Path.isBelow_resolve_join (by decide) (by decide) hstays w.output

namespace Session

/-! ## Sessions -/

theorem sameDirectories_step (s : State) (step : Step) :
    SameDirectories s.workspace (step.run s).1.workspace := by
  have htick : SameDirectories s.workspace (tick s.workspace) := ⟨rfl, rfl⟩
  rcases step.effect_or_files s with heffect | hforget | ⟨files, hfiles⟩
  · exact htick.trans heffect.sameDirectories
  · rw [hforget]
    exact htick.trans ⟨rfl, rfl⟩
  · rw [hfiles]
    exact htick.trans ⟨rfl, rfl⟩

/-- The directories of a workspace stay the same, whatever is done in a session. -/
theorem sameDirectories_run (s : State) (steps : List Step) :
    SameDirectories s.workspace (run s steps).1.workspace := by
  refine run_induction (P := fun next => SameDirectories s.workspace next.workspace) (.refl _) ?_
  intro next step _ hsame
  exact hsame.trans (sameDirectories_step next step)

/-- Every output name of a step stays inside the output directory, and no file is placed from
outside. -/
def Step.StaysInside : Step → Prop
  | .call tool args => ∀ suffix n, Tool.exportSuffix? tool = some suffix →
      Arguments.nameOf (args.get "arrangement") = .ok n →
        Path.staysInside (Tool.outputName args n ++ suffix)
  | .place _ _ => False
  | _ => True

theorem touches_of_changed_call
    {s : State} (hchanged : ((Step.call tool args).run s).1.workspace.files.file? place ≠
      s.workspace.files.file? place) : Tool.Touches tool args s.workspace place := by
  rw [workspace_of_call] at hchanged
  cases Tool.touches_of_changed hchanged with
  | stored htool hplace => exact .stored htool hplace
  | exported htool hname hplace => exact .exported htool hname hplace

theorem exists_file_of_success
    {s : State} (htool : Tool.exportSuffix? tool = some suffix)
    (hsuccess : ((Step.call tool args).run s).2.IsSuccess) :
    ∃ n content, Arguments.nameOf (args.get "arrangement") = .ok n ∧
      ((Step.call tool args).run s).1.workspace.files.file?
        (Tool.outputPath args suffix n s.workspace).resolve =
          some (content, s.workspace.stamp + 1) := by
  have hruns : Action.Runs _ (toolAction tool args) (tick s.workspace) _ :=
    Tool.export_call_runs htool
  obtain ⟨n, content, hname, hfile, -⟩ :=
    (hruns.answers _ (ok_of_isSuccess hsuccess)).file_resolve
  rw [workspace_of_call]
  exact ⟨n, content, hname, hfile⟩

theorem file?_step_of_outside
    {s : State} {step : Step} (hstep : step.StaysInside)
    (harrangements : ¬IsBelow s.workspace.arrangements.resolve place)
    (houtput : ¬IsBelow s.workspace.output.resolve place) :
    (step.run s).1.workspace.files.file? place = s.workspace.files.file? place := by
  cases step with
  | call tool args =>
      by_contra hchanged
      cases touches_of_changed_call hchanged with
      | stored htool hplace => exact harrangements hplace
      | exported htool hname hplace =>
          have hinside := Tool.isBelow_outputPath htool (hstep _ _ htool hname) s.workspace
          rw [← hplace] at hinside
          exact houtput hinside
  | restart => rfl
  | place path text => exact hstep.elim
  | reveal path => rfl
  | listFiles => rfl
  | describeLibrary => rw [workspace_of_describe]; rfl

/-- While the names of all outputs stay inside, a session changes no file outside of its
directories. -/
theorem file?_run_of_outside
    {s : State} {steps : List Step} (hsteps : ∀ step ∈ steps, step.StaysInside)
    (harrangements : ¬IsBelow s.workspace.arrangements.resolve place)
    (houtput : ¬IsBelow s.workspace.output.resolve place) :
    (run s steps).1.workspace.files.file? place = s.workspace.files.file? place := by
  refine (run_induction (P := fun next => SameDirectories s.workspace next.workspace ∧
    next.workspace.files.file? place = s.workspace.files.file? place) ⟨.refl _, rfl⟩ ?_).2
  rintro next step hmem ⟨hsame, hfile⟩
  refine ⟨hsame.trans (sameDirectories_step next step), ?_⟩
  rw [← hsame.arrangements_eq] at harrangements
  rw [← hsame.output_eq] at houtput
  exact (file?_step_of_outside (hsteps step hmem) harrangements houtput).trans hfile

/-- The output directory of a session. -/
def outputHome (d : String) : Place := [d, "output"]

theorem resolve_arrangements_opened (d : String) (files : FileTree) :
    (opened d files).workspace.arrangements.resolve = home d := by
  have hparts : Path.partsOf "arrangements" = ["arrangements"] := by decide +kernel
  have hname : "arrangements" ≠ ".." := by decide
  simp [opened, start, Path.join, Path.atRoot, hparts, Path.resolve, Place.resolve, Place.follow,
    hname, home]

theorem resolve_output_opened (d : String) (files : FileTree) :
    (opened d files).workspace.output.resolve = outputHome d := by
  have hparts : Path.partsOf "output" = ["output"] := by decide +kernel
  have hname : "output" ≠ ".." := by decide
  simp [opened, start, Path.join, Path.atRoot, hparts, Path.resolve, Place.resolve, Place.follow,
    hname, outputHome]

/-- In every session, with whatever files it begins, a file that a call creates, overwrites or
removes lies inside the directory of arrangements if the call saves or deletes.  Otherwise the call
exports, and the file is where its output name leads from the output directory, which is inside if
the name stays inside.  An export that succeeds has written this very file. -/
theorem changed_file_contained
    (d : String) (files : FileTree) (steps : List Step) (tool : String) (args : Arguments) :
    let s := (run (opened d files) steps).1
    let next := (Step.call tool args).run s
    (∀ place, next.1.workspace.files.file? place ≠ s.workspace.files.file? place →
      tool ∈ Tool.storeTools ∧ IsBelow (home d) place ∨
        ∃ suffix n, Tool.exportSuffix? tool = some suffix ∧
          Arguments.nameOf (args.get "arrangement") = .ok n ∧
          place = (Tool.outputPath args suffix n (opened d files).workspace).resolve ∧
          (Path.staysInside (Tool.outputName args n ++ suffix) → IsBelow (outputHome d) place)) ∧
      ∀ suffix, Tool.exportSuffix? tool = some suffix → next.2.IsSuccess →
        ∃ n content, Arguments.nameOf (args.get "arrangement") = .ok n ∧
          next.1.workspace.files.file?
              (Tool.outputPath args suffix n (opened d files).workspace).resolve =
            some (content, s.workspace.stamp + 1) := by
  intro s next
  have hsame : SameDirectories (opened d files).workspace s.workspace :=
    sameDirectories_run (opened d files) steps
  constructor
  · intro place hchanged
    cases touches_of_changed_call hchanged with
    | stored htool hplace =>
        rw [hsame.arrangements_eq, resolve_arrangements_opened] at hplace
        exact Or.inl ⟨htool, hplace⟩
    | exported htool hname hplace =>
        rw [Tool.outputPath, hsame.output_eq] at hplace
        refine Or.inr ⟨_, _, htool, hname, hplace, ?_⟩
        intro hstays
        have hinside := Tool.isBelow_outputPath htool hstays (opened d files).workspace
        rw [resolve_output_opened] at hinside
        rw [hplace]
        exact hinside
  · intro suffix htool hsuccess
    obtain ⟨n, content, hname, hfile⟩ := exists_file_of_success htool hsuccess
    rw [Tool.outputPath, hsame.output_eq] at hfile
    exact ⟨n, content, hname, hfile⟩

/-- An arrangement without clips, of which programs can be made. -/
def blankSteps : List Step := [.call "sclang_create_arrangement" ⟨[(.text "name", .text "a")]⟩]

def blankState : State := (run (start "d") blankSteps).1

def blankCompile (output : String) : Arguments :=
  ⟨[(.text "arrangement", .text "a"), (.text "output_name", .text output)]⟩

def compiledState (output : String) : State :=
  ((Step.call "sclang_compile" (blankCompile output)).run blankState).1

/-- The name leads through a directory that is made for it, and back. -/
theorem changed_file_contained_compiledState :
    (compiledState "parts/../b").workspace.files.file? ["d", "output", "b.scd"] ≠
        blankState.workspace.files.file? ["d", "output", "b.scd"] ∧
      IsBelow (outputHome "d") ["d", "output", "b.scd"] := by
  have hchanged : (compiledState "parts/../b").workspace.files.file? ["d", "output", "b.scd"] ≠
      blankState.workspace.files.file? ["d", "output", "b.scd"] := by decide +kernel
  refine ⟨hchanged, ?_⟩
  have hcontained := (changed_file_contained "d" (start "d").workspace.files blankSteps
    "sclang_compile" (blankCompile "parts/../b")).1 _ hchanged
  rcases hcontained with ⟨htool, -⟩ | ⟨suffix, n, htool, hname, -, hinside⟩
  · simp [Tool.storeTools] at htool
  · apply hinside
    have hn : n = "a" := (Except.ok.inj hname).symm
    have hsuffix : suffix = Export.programSuffix := (Option.some.inj htool).symm
    rw [hn, hsuffix]
    decide +kernel

/-- A name that leads upwards is written beside the output directory. -/
theorem upwardName_is_written_outside :
    (compiledState "../a").workspace.files.file? ["d", "a.scd"] ≠
        blankState.workspace.files.file? ["d", "a.scd"] ∧
      ¬IsBelow (outputHome "d") ["d", "a.scd"] := by
  constructor
  · decide +kernel
  · decide

end Session

end Arranger
