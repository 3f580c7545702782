import Arranger.Proofs.Midi.Encoding
import Arranger.Proofs.Session.Tidy

/-!
# Exports that fail

A program is made before its file is touched, and so are the events of a rendering, but not its
bytes.  A call that fails has therefore changed no file, unless the bytes of a rendering end at the
name of a track, a program turns out to be broken, or the tempo of a rendering is too long for the
message: the file has then lost what it had before.
-/

namespace Arranger.Session

open Library (Asked Prepares)

variable {args : Arguments} {w v : Workspace}

def exportTools : List String := ["sclang_compile", "sclang_compile_midi"]

/-- The file at the path holds the content, and all other files are as they were. -/
structure LeavesFile (p : Path) (content : Content) (w v : Workspace) (target : Place) : Prop where
  located : v.files.locate p = .ok target
  written : v.files.file? target = some (content, w.stamp)
  others : FileTree.SameFilesBut target w.files v.files

theorem exists_leavesFile
    {n : String} {u : Workspace} {a : Arrangement} {directory p : Path} {content : Content}
    (hasked : Asked n w u a) (hwrites : Library.Writes directory p content u v) :
    ∃ target, LeavesFile p content w v target := by
  obtain ⟨target, hlocate, hwritten, hothers⟩ := hwrites.sameFilesBut
  rw [hasked.stamp_eq] at hwritten
  rw [hasked.files_eq] at hothers
  exact ⟨target, hlocate, hwritten, hothers⟩

/-- The program of an arrangement with a broken reference is not written, but its file is empty. -/
inductive LeavesNothing (args : Arguments) (w v : Workspace) : Prop where
  | intro {n : String} {u : Workspace} {a : Arrangement} {target : Place}
      (hname : Arguments.nameOf (args.get "arrangement") = .ok n) (hasked : Asked n w u a)
      (hbroken : a.HasBrokenReference)
      (hfile : LeavesFile (Library.programPath w (Tool.outputName args n)) (.text "") w v target)

theorem leavesNothing_of_empties (h : Tool.Empties args w v) : LeavesNothing args w v := by
  obtain ⟨hname, hasked, hsource, hbroken, hwrites⟩ := h
  obtain ⟨target, hfile⟩ := exists_leavesFile hasked hwrites
  rw [Library.programPath, hasked.output_eq] at hfile
  exact .intro hname hasked ((Program.text?_source_eq_none_iff hsource).1 hbroken) hfile

/-- The tempo is a whole number with more digits than a message holds. -/
def HasLongTempo (args : Arguments) : Prop :=
  ∃ i : Int, Tool.tempoGiven args = .int i ∧
    Text.digitLimit < (Nat.toDigits 10 i.natAbs).length

theorem hasLongTempo_of_error
    {fault : Fault} (h : Tool.tempoText (Tool.tempoGiven args) = .error fault) :
    HasLongTempo args := by
  unfold Tool.tempoText at h
  split at h
  · next i hgiven =>
    refine ⟨i, hgiven, ?_⟩
    by_contra hshort
    simp [Reply.portableInteger, hshort, Except.mapError, Functor.map, Except.map] at h
  · cases h

/-- What can be written of the rendering of an arrangement at the given tempo is in its file; either
this is not the whole of it, or the message cannot tell the tempo. -/
inductive LeavesRendering (args : Arguments) (w v : Workspace) : Prop where
  | intro {n : String} {u : Workspace} {a : Arrangement} {tempo : Decimal.Number}
      {song : Midi.Song} {target : Place}
      (hname : Arguments.nameOf (args.get "arrangement") = .ok n) (hasked : Asked n w u a)
      (htempo : Tool.tempoOf (Tool.tempoGiven args) = .ok tempo)
      (hcause : ¬a.IsWritable ∨ HasLongTempo args)
      (hsong : (Midi.render a tempo Midi.defaultTicksPerBeat).result = .ok song)
      (hfile : LeavesFile (Library.midiPath w (Tool.outputName args n)) (.bytes song.write.bytes)
        w v target)

theorem leavesRendering_of_breaksOff (h : Tool.BreaksOff args w v) : LeavesRendering args w v := by
  obtain ⟨hname, hasked, htempo, hsong, hcause, hwrites⟩ := h
  obtain ⟨target, hfile⟩ := exists_leavesFile hasked hwrites
  rw [Library.midiPath, hasked.output_eq] at hfile
  refine .intro hname hasked htempo ?_ hsong hfile
  rcases hcause with hfault | ⟨fault, htempo⟩
  · exact Or.inl (mt (Midi.fault_write_render_eq_none_iff hsong).2 hfault)
  · exact Or.inr (hasLongTempo_of_error htempo)

/-- What is left by an export that fails is left by a call of it that answers with an error. -/
theorem holds_of_error
    {s : State} {tool : String} {fault : Fault} {P : Workspace → Prop}
    (hruns : Tool.RunsExport P (toolAction tool args) (tick s.workspace))
    (herror : ((Step.call tool args).run s).2.value = Reply.error fault) :
    P ((Step.call tool args).run s).1.workspace := by
  obtain ⟨e, he⟩ := exists_error_of_value herror fun reply hreply =>
    (hruns.answers reply hreply).2
  rw [workspace_of_call]
  exact hruns.fails e he

/-- A call that answers with an error has changed no file, but for the file of its output in three
cases.  A program with a broken reference leaves its file empty.  A rendering leaves its file with
what can be written of it, if the arrangement is not writable, and with the whole of it if the tempo
is too long to be told. -/
theorem failed_export_keeps_files
    {s : State} {tool : String} {fault : Fault} (htool : tool ∈ exportTools)
    (herror : ((Step.call tool args).run s).2.value = Reply.error fault) :
    let next := ((Step.call tool args).run s).1
    s.workspace.files.SameFiles next.workspace.files ∨
      tool = "sclang_compile" ∧ LeavesNothing args (tick s.workspace) next.workspace ∨
        tool = "sclang_compile_midi" ∧ LeavesRendering args (tick s.workspace) next.workspace := by
  intro next
  rcases List.mem_pair.1 htool with rfl | rfl
  · have hruns : Tool.RunsExport _ (toolAction "sclang_compile" args) (tick s.workspace) :=
      Tool.compile_runs
    rcases holds_of_error hruns herror with hprepares | hempties
    · exact Or.inl hprepares.sameFiles
    · exact Or.inr (Or.inl ⟨rfl, leavesNothing_of_empties hempties⟩)
  · have hruns : Tool.RunsExport _ (toolAction "sclang_compile_midi" args) (tick s.workspace) :=
      Tool.compileMidi_runs
    rcases holds_of_error hruns herror with hprepares | hbreaks
    · exact Or.inl hprepares.sameFiles
    · exact Or.inr (Or.inr ⟨rfl, leavesRendering_of_breaksOff hbreaks⟩)

theorem exists_error_of_fails
    (s : State) (tool : String) (args : Arguments)
    (h : (toolAction tool args (tick s.workspace)).2.result.isOk = false) :
    ∃ fault, ((Step.call tool args).run s).2.value = Reply.error fault := by
  cases hresult : (toolAction tool args (tick s.workspace)).2.result with
  | ok reply =>
      rw [hresult] at h
      cases h
  | error fault => exact ⟨fault, value_of_error hresult⟩

/-- The pool of the sample has a clip that is a file, of which no program can be made. -/
def sampleCompile : Arguments := ⟨[(.text "arrangement", .text "a b")]⟩

theorem failed_export_keeps_files_sampleState :
    ∃ fault, ((Step.call "sclang_compile" sampleCompile).run sampleState).2.value =
        Reply.error fault ∧
      sampleState.workspace.files.SameFiles
        ((Step.call "sclang_compile" sampleCompile).run sampleState).1.workspace.files := by
  obtain ⟨fault, herror⟩ :=
    exists_error_of_fails sampleState "sclang_compile" sampleCompile (by decide +kernel)
  refine ⟨fault, herror, ?_⟩
  rcases failed_export_keeps_files (by simp [exportTools]) herror with
    hsame | ⟨-, hempty⟩ | ⟨hother, -⟩
  · exact hsame
  · -- no directory has been made for a program, so that its file is nowhere
    obtain ⟨hname, -, -, hfile⟩ := hempty
    have hlocate := hfile.located
    rw [← Except.ok.inj hname] at hlocate
    let p := Library.programPath (tick sampleState.workspace) (Tool.outputName sampleCompile "a b")
    let next := ((Step.call "sclang_compile" sampleCompile).run sampleState).1
    have hnowhere : (next.workspace.files.locate p).isOk = false := by decide +kernel
    rw [hlocate] at hnowhere
    cases hnowhere
  · simp at hother

/-- A rendering is made, and then a track is added whose name is a character of another set. -/
def cutSteps : List Step :=
  [.call "sclang_create_arrangement" ⟨[(.text "name", .text "a")]⟩,
    .call "sclang_add_track" ⟨[(.text "arrangement", .text "a"), (.text "name", .text "lead")]⟩,
    .call "sclang_compile_midi" ⟨[(.text "arrangement", .text "a")]⟩,
    .call "sclang_add_track" ⟨[(.text "arrangement", .text "a"), (.text "name", .text "♫")]⟩]

def cutState : State := (run (start "d") cutSteps).1

def cutRendering : Step := .call "sclang_compile_midi" ⟨[(.text "arrangement", .text "a")]⟩

def cutPlace : Place := ["d", "output", "a.mid"]

theorem cutRendering_loses_file :
    (∃ fault, (cutRendering.run cutState).2.value = Reply.error fault) ∧
      (cutState.workspace.files.file? cutPlace).isSome ∧
        ((cutRendering.run cutState).1.workspace.files.file? cutPlace).map Prod.fst ≠
          (cutState.workspace.files.file? cutPlace).map Prod.fst := by
  refine ⟨?_, by decide +kernel, by decide +kernel⟩
  exact exists_error_of_fails cutState "sclang_compile_midi" _ (by decide +kernel)

end Arranger.Session
