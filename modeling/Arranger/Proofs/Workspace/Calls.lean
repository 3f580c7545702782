import Arranger.Proofs.Library.Effects
import Arranger.Proofs.Workspace.NewClips
import Arranger.Workspace.Session

/-!
# What the tools do to a workspace

Every call of a tool has one of the effects of the library, whether it succeeds or fails, and it
makes, changes or drops no arrangement but the one that its arguments target.  A call that edits
leaves what its edit makes of the arrangement.
-/

namespace Arranger.Tool

open Arranger.Action (Runs)
open Library (Asked Deletes Edits Effect IsOutput IsRooted Prepares QuietEffect Saves Writes
  orMissing)

/-! ## Targets and edits -/

/-- The arrangement that an argument names. -/
def targetOf (d : Datum) : Option Label := (Arguments.nameOf d).toOption.map .text

/-- The name of the arrangement that a call makes, changes or drops. -/
def target? (args : Arguments) : String → Option Label
  | "sclang_create_arrangement" => (Library.readName (args.get "name")).toOption
  | "sclang_duplicate_arrangement" => (Library.readName (args.get "new_name")).toOption
  | "sclang_delete_arrangement" => targetOf (args.get "name")
  | "sclang_add_empty_clip" | "sclang_add_file_clip" | "sclang_add_instrument_clip"
  | "sclang_add_track" | "sclang_append_clip" | "sclang_remove_clip" | "sclang_remove_track" =>
      targetOf (args.get "arrangement")
  | _ => none

def addOrFail (clip : Except Fault Clip) (a : Arrangement) : Except Fault Arrangement := do
  return a.addClip (← clip)

def emptyClipOf (args : Arguments) : Except Fault Clip := do
  let duration ← (Notation.duration (args.get "duration")).result
  return .empty (← Notation.emptyClip (args.get "name") (.float duration))

def fileClipOf (args : Arguments) : Except Fault Clip :=
  .file <$> Notation.fileClip (args.get "name") (args.get "path")

def instrumentClipOf (args : Arguments) : Except Fault Clip :=
  .instrument <$> (instrumentClip (args.get "name")
    (args.getOr "instrument" (.text defaultInstrument)) (args.get "notes")
    (args.get "durations")).result

def trackOf (args : Arguments) : Except Fault Track := do
  let clips := if (args.get "clips").isGiven then args.get "clips" else .list []
  Notation.track (args.get "name") (← clips.parts.mapError .shape)

/-- What a tool that edits makes of an arrangement. -/
def editOf? (args : Arguments) : String → Option (Arrangement → Except Fault Arrangement)
  | "sclang_add_empty_clip" => some (addOrFail (emptyClipOf args))
  | "sclang_add_file_clip" => some (addOrFail (fileClipOf args))
  | "sclang_add_instrument_clip" => some (addOrFail (instrumentClipOf args))
  | "sclang_add_track" => some fun a => do return a.addTrack (← trackOf args)
  | "sclang_append_clip" => some fun a =>
      orMissing .track (args.get "track").bareText
        (a.appendClip? (args.get "track").bareText (args.get "clip").bareText)
  | "sclang_remove_clip" => some fun a =>
      orMissing .clip (args.get "name").bareText (a.removeClip? (args.get "name").bareText)
  | "sclang_remove_track" => some fun a =>
      orMissing .track (args.get "name").bareText (a.removeTrack? (args.get "name").bareText)
  | _ => none

theorem edited_of_addOrFail
    {clip : Except Fault Clip} {a b : Arrangement} (hclip : ∀ c, clip = .ok c → c.HasLengths)
    (h : addOrFail clip a = .ok b) : Edited a b := by
  obtain ⟨c, hc, hb⟩ := bind_eq_ok_iff.1 h
  rw [← Except.ok.inj hb]
  exact .addClip c (hclip c hc)

theorem hasLengths_of_emptyClipOf
    {args : Arguments} {c : Clip} (h : emptyClipOf args = .ok c) : c.HasLengths := by
  obtain ⟨duration, -, h⟩ := bind_eq_ok_iff.1 h
  obtain ⟨clip, -, hc⟩ := bind_eq_ok_iff.1 h
  rw [← Except.ok.inj hc]
  rintro d ⟨⟩

theorem hasLengths_of_fileClipOf
    {args : Arguments} {c : Clip} (h : fileClipOf args = .ok c) : c.HasLengths := by
  obtain ⟨clip, -, rfl⟩ := map_eq_ok_iff.1 h
  rintro d ⟨⟩

theorem hasLengths_of_instrumentClipOf
    {args : Arguments} {c : Clip} (h : instrumentClipOf args = .ok c) : c.HasLengths := by
  obtain ⟨clip, hclip, rfl⟩ := map_eq_ok_iff.1 h
  exact hasLengths_of_instrumentClip hclip

theorem eq_some_of_orMissing
    {entity : Entity} {text : String} {b : Arrangement} {found : Option Arrangement}
    (h : orMissing entity text found = .ok b) : found = some b := by
  cases found with
  | none => simp [orMissing] at h
  | some c => rw [Except.ok.inj h]

/-- What the edit of a call makes of an arrangement. -/
theorem edited_of_editOf?
    {args : Arguments} {tool : String} {f : Arrangement → Except Fault Arrangement}
    (hf : editOf? args tool = some f) {a b : Arrangement} (h : f a = .ok b) : Edited a b := by
  unfold editOf? at hf
  split at hf <;> cases hf
  · exact edited_of_addOrFail (fun _ => hasLengths_of_emptyClipOf) h
  · exact edited_of_addOrFail (fun _ => hasLengths_of_fileClipOf) h
  · exact edited_of_addOrFail (fun _ => hasLengths_of_instrumentClipOf) h
  · obtain ⟨t, -, hb⟩ := bind_eq_ok_iff.1 h
    rw [← Except.ok.inj hb]
    exact .addTrack t
  · exact .appendClip (eq_some_of_orMissing h)
  · exact .removeClip (eq_some_of_orMissing h)
  · exact .removeTrack (eq_some_of_orMissing h)

/-! ## Tools that edit -/

variable {E : Workspace → Prop} {args : Arguments} {w v : Workspace} {n key : String}

theorem name_runs (hw : E w) :
    Runs E (args.name key) w fun n v => w = v ∧ Arguments.nameOf (args.get key) = .ok n :=
  Action.runs_ofExcept hw

theorem targetOf_of_nameOf
    {d : Datum} (h : Arguments.nameOf d = .ok n) : targetOf d = some (.text n) := by
  rw [targetOf, h]
  rfl

/-- An edit that failed has asked for the arrangement that it names at most. -/
inductive Attempts (args : Arguments) (w : Workspace) : Workspace → Prop where
  | unchanged : Attempts args w w
  | asked {n : String} {v : Workspace} {a : Arrangement}
      (hname : Arguments.nameOf (args.get "arrangement") = .ok n) (hasked : Asked n w v a) :
      Attempts args w v

/-- The edit of a call was made of the arrangement that it names. -/
def Performs (args : Arguments) (f : Arrangement → Except Fault Arrangement)
    (w v : Workspace) : Prop :=
  ∃ n b, Arguments.nameOf (args.get "arrangement") = .ok n ∧ Edits n f w v b

/-- A call that edits fails after an attempt at most, or it performs its edit and tells of it. -/
abbrev RunsEdit (args : Arguments) (f : Arrangement → Except Fault Arrangement)
    (x : Action Datum) (w : Workspace) : Prop :=
  Runs (Attempts args w) x w fun reply v =>
    Performs args f w v ∧ ∃ fields, reply = Reply.success fields

theorem edit_runs
    {f : Arrangement → Except Fault Arrangement}
    (hname : Arguments.nameOf (args.get "arrangement") = .ok n) :
    Runs (Attempts args w) (Library.edit n f) w fun _ v => Performs args f w v := by
  refine (Library.edit_runs .unchanged fun _ _ hasked => .asked hname hasked).mono ?_
  intro b v hedits
  exact ⟨n, b, hname, hedits⟩

/-- An edit that is told of when it is made. -/
theorem edit_reply_runs
    {f : Arrangement → Except Fault Arrangement}
    (hname : Arguments.nameOf (args.get "arrangement") = .ok n)
    (fields : Arrangement → List (String × Datum)) :
    RunsEdit args f (Library.edit n f >>= fun b => pure (Reply.success (fields b))) w := by
  refine (edit_runs hname).bind ?_
  intro b v hperforms
  exact Action.runs_pure ⟨hperforms, _, rfl⟩

theorem addOrFail_ok (clip : Clip) :
    addOrFail (.ok clip) = fun a => .ok (a.addClip clip) := rfl

theorem addedClip_runs
    {clip : Clip} {given : Except Fault Clip} (hclip : given = .ok clip)
    (hname : Arguments.nameOf (args.get "arrangement") = .ok n) :
    RunsEdit args (addOrFail given) (addedClip n clip) w := by
  unfold addedClip Library.addClip
  rw [hclip, addOrFail_ok]
  exact edit_reply_runs hname _

theorem addInstrumentClip_runs :
    RunsEdit args (addOrFail (instrumentClipOf args)) (addInstrumentClip args) w := by
  unfold addInstrumentClip
  refine (Action.runs_ofOutcome .unchanged).bind ?_
  rintro clip _ ⟨rfl, hclip⟩
  refine (name_runs .unchanged).bind ?_
  rintro n _ ⟨rfl, hname⟩
  apply addedClip_runs _ hname
  rw [instrumentClipOf, hclip]
  rfl

theorem addEmptyClip_runs : RunsEdit args (addOrFail (emptyClipOf args)) (addEmptyClip args) w := by
  unfold addEmptyClip
  refine (Action.runs_ofOutcome .unchanged).bind ?_
  rintro duration _ ⟨rfl, hduration⟩
  refine (Action.runs_ofExcept .unchanged).bind ?_
  rintro clip _ ⟨rfl, hclip⟩
  refine (name_runs .unchanged).bind ?_
  rintro n _ ⟨rfl, hname⟩
  apply addedClip_runs _ hname
  rw [emptyClipOf, hduration]
  simp only [bind, Except.bind, hclip]
  rfl

theorem addFileClip_runs : RunsEdit args (addOrFail (fileClipOf args)) (addFileClip args) w := by
  unfold addFileClip
  refine (Action.runs_ofExcept .unchanged).bind ?_
  rintro clip _ ⟨rfl, hclip⟩
  refine (name_runs .unchanged).bind ?_
  rintro n _ ⟨rfl, hname⟩
  apply addedClip_runs _ hname
  rw [fileClipOf, hclip]
  rfl

theorem addTrack_runs :
    RunsEdit args (fun a => do return a.addTrack (← trackOf args)) (addTrack args) w := by
  unfold addTrack Library.addTrack
  refine (name_runs .unchanged).bind ?_
  rintro n _ ⟨rfl, hname⟩
  exact edit_reply_runs hname _

theorem appendClip_runs :
    RunsEdit args (fun a => orMissing .track (args.get "track").bareText
      (a.appendClip? (args.get "track").bareText (args.get "clip").bareText))
      (appendClip args) w := by
  unfold appendClip Library.appendClip
  refine (name_runs .unchanged).bind ?_
  rintro n _ ⟨rfl, hname⟩
  exact edit_reply_runs hname _

theorem removeClip_runs :
    RunsEdit args (fun a => orMissing .clip (args.get "name").bareText
      (a.removeClip? (args.get "name").bareText)) (removeClip args) w := by
  unfold removeClip Library.removeClip
  refine (name_runs .unchanged).bind ?_
  rintro n _ ⟨rfl, hname⟩
  exact edit_reply_runs hname _

theorem removeTrack_runs :
    RunsEdit args (fun a => orMissing .track (args.get "name").bareText
      (a.removeTrack? (args.get "name").bareText)) (removeTrack args) w := by
  unfold removeTrack Library.removeTrack
  refine (name_runs .unchanged).bind ?_
  rintro n _ ⟨rfl, hname⟩
  exact edit_reply_runs hname _

/-! ## Tools that save and delete -/

theorem saveArrangement_runs :
    Runs (Prepares w) (saveArrangement args) w fun _ v =>
      ∃ n u a, Arguments.nameOf (args.get "name") = .ok n ∧ Asked n w u a ∧ Saves a u v := by
  unfold saveArrangement
  refine (name_runs .unchanged).bind ?_
  rintro n _ ⟨rfl, hname⟩
  refine (Library.require_runs .unchanged).bind ?_
  intro a u hasked
  have hprepared : ∀ made, u.files.makeDirectories u.arrangements = .ok made →
      Prepares w { u with files := made } :=
    fun made hmake => .made hasked (Or.inr (Or.inl rfl)) hmake
  refine (Library.save_runs (.asked hasked) hprepared).bind ?_
  intro p v hsaves
  exact Action.runs_pure ⟨n, u, a, hname, hasked, hsaves⟩

theorem deleteArrangement_runs :
    Runs (QuietEffect (targetOf (args.get "name")) w) (deleteArrangement args) w
      fun _ v => ∃ n, Arguments.nameOf (args.get "name") = .ok n ∧ Deletes n w v := by
  unfold deleteArrangement
  refine (name_runs .unchanged).bind ?_
  rintro n _ ⟨rfl, hname⟩
  have htarget := targetOf_of_nameOf hname
  refine (Library.delete_runs htarget).bind ?_
  rintro wasThere v ⟨hdeletes, hquiet⟩
  cases wasThere with
  | false => exact Action.runs_fail (hquiet rfl)
  | true => exact Action.runs_pure ⟨n, hname, hdeletes⟩

/-! ## Tools that make arrangements and tell of them -/

theorem createArrangement_runs :
    Runs (QuietEffect (Library.readName (args.get "name")).toOption w) (createArrangement args) w
      fun _ v => QuietEffect (Library.readName (args.get "name")).toOption w v := by
  have htarget : ∀ n, Library.readName (args.get "name") = .ok n →
      (Library.readName (args.get "name")).toOption = some n := by
    intro n hn
    rw [hn]
    rfl
  unfold createArrangement
  refine (Library.create_runs htarget).bind ?_
  intro a v hv
  exact Action.runs_pure hv

theorem duplicateArrangement_runs :
    Runs (QuietEffect (Library.readName (args.get "new_name")).toOption w) (duplicateArrangement args) w
      fun _ v => QuietEffect (Library.readName (args.get "new_name")).toOption w v := by
  have htarget : ∀ n, Library.readName (args.get "new_name") = .ok n →
      (Library.readName (args.get "new_name")).toOption = some n := by
    intro n hn
    rw [hn]
    rfl
  unfold duplicateArrangement
  refine (name_runs .unchanged).bind ?_
  rintro n _ ⟨rfl, -⟩
  refine (Library.duplicate_runs htarget).bind ?_
  intro a v hv
  exact Action.runs_pure hv

variable {target : Option Label}

theorem getArrangement_runs :
    Runs (QuietEffect target w) (getArrangement args) w fun _ v => QuietEffect target w v := by
  unfold getArrangement
  refine (name_runs .unchanged).bind ?_
  rintro n _ ⟨rfl, -⟩
  refine (Library.require_runs .unchanged).bind ?_
  intro a v hasked
  exact Action.runs_pure (.asked hasked)

theorem getArrangement_of_asked {a : Arrangement} (h : Asked n w v a) :
    getArrangement ⟨[(.text "name", .text n)]⟩ w =
      (v, .value (Reply.success [("arrangement", a.datum)])) := by
  have hname : Arguments.nameOf (Arguments.get ⟨[(.text "name", .text n)]⟩ "name") = .ok n := by
    simp [Arguments.get, Arguments.nameOf]
  unfold getArrangement Arguments.name
  rw [hname, Action.bind_of_value (Action.ofExcept_ok n),
    Action.bind_of_value (Library.require_of_asked h)]
  rfl

/-- The reply tells the text of the arrangement that is asked for. -/
def Exports (args : Arguments) (w v : Workspace) (reply : Datum) : Prop :=
  ∃ n a, Arguments.nameOf (args.get "arrangement") = .ok n ∧ Asked n w v a ∧
    reply = Reply.success [("yaml", .text (Yaml.write a.datum))]

theorem exportYaml_runs_quiet :
    Runs (QuietEffect target w) (exportYaml args) w fun reply v => Exports args w v reply := by
  unfold exportYaml
  refine (name_runs .unchanged).bind ?_
  rintro n _ ⟨rfl, hname⟩
  refine (Library.require_runs .unchanged).bind ?_
  intro a v hasked
  exact Action.runs_pure ⟨n, a, hname, hasked, rfl⟩

theorem exportYaml_runs :
    Runs (Effect target w) (exportYaml args) w fun reply v => Exports args w v reply :=
  exportYaml_runs_quiet.weaken fun _ hquiet => hquiet.effect

/-- What a reply tells of a report. -/
def reportFields (r : Report) : List (String × Datum) :=
  [("valid", .bool r.isValid), ("errors", remarks .error r), ("warnings", remarks .warning r),
    ("info", remarks .info r)]

/-- The reply tells of the report of the arrangement that is asked for. -/
def Reports (args : Arguments) (w v : Workspace) (reply : Datum) : Prop :=
  ∃ n a, Arguments.nameOf (args.get "arrangement") = .ok n ∧ Asked n w v a ∧
    reply = Reply.success (reportFields a.report)

theorem validate_runs_quiet :
    Runs (QuietEffect target w) (validate args) w fun reply v => Reports args w v reply := by
  unfold validate
  refine (name_runs .unchanged).bind ?_
  rintro n _ ⟨rfl, hname⟩
  refine (Library.require_runs .unchanged).bind ?_
  intro a v hasked
  exact Action.runs_pure ⟨n, a, hname, hasked, rfl⟩

theorem validate_runs :
    Runs (Effect target w) (validate args) w fun reply v => Reports args w v reply :=
  validate_runs_quiet.weaken fun _ hquiet => hquiet.effect

/-! ## Tools that export -/

/-- The ending of what a tool writes into the output directory. -/
def exportSuffix? : String → Option String
  | "sclang_compile" => some Export.programSuffix
  | "sclang_compile_midi" => some Export.midiSuffix
  | _ => none

/-- The path of an output of the arrangement `n`. -/
def outputPath (args : Arguments) (suffix n : String) (w : Workspace) : Path :=
  w.output.join (outputName args n ++ suffix)

/-- Something is written under the output name of the arrangement that is asked for. -/
inductive WritesOutput (args : Arguments) (suffix : String) (w : Workspace) : Workspace → Prop where
  | intro {n : String} {u v : Workspace} {a : Arrangement} {directory : Path} {content : Content}
      (hname : Arguments.nameOf (args.get "arrangement") = .ok n) (hasked : Asked n w u a)
      (hrooted : IsRooted u directory) (houtput : IsOutput u (outputPath args suffix n u))
      (hwrites : Writes directory (outputPath args suffix n u) content u v) :
      WritesOutput args suffix w v

theorem WritesOutput.effect {suffix : String} (h : WritesOutput args suffix w v) :
    Effect target w v := by
  obtain ⟨-, hasked, hrooted, houtput, hwrites⟩ := h
  exact hwrites.effect hasked hrooted houtput

/-- A call that exports fails and leaves `E`, or it has written something and tells of it. -/
abbrev RunsExport (E : Workspace → Prop) (x : Action Datum) (w : Workspace) : Prop :=
  Runs E x w fun reply v => (∀ target, Effect target w v) ∧ ∃ fields, reply = Reply.success fields

/-- A program needs the directories that lead to its file. -/
theorem writesOutput_of_program
    {u : Workspace} {a : Arrangement} {content : Content}
    (hname : Arguments.nameOf (args.get "arrangement") = .ok n) (hasked : Asked n w v a)
    (hwrites : Writes (Library.programPath v (outputName args n)).parent
      (Library.programPath v (outputName args n)) content v u) :
    WritesOutput args Export.programSuffix w u :=
  .intro hname hasked (Library.isRooted_parent_join v _) (.program _) hwrites

/-- The program of an arrangement is broken, and its file is empty. -/
inductive Empties (args : Arguments) (w : Workspace) : Workspace → Prop where
  | intro {n : String} {v u : Workspace} {a : Arrangement} {source : Label}
      (hname : Arguments.nameOf (args.get "arrangement") = .ok n) (hasked : Asked n w v a)
      (hsource : (Program.source (args.get "allow_stubs").isGiven a).result = .ok source)
      (hbroken : source.text? = none)
      (hwrites : Writes (Library.programPath v (outputName args n)).parent
        (Library.programPath v (outputName args n)) (.text "") v u) : Empties args w u

theorem Empties.writesOutput (h : Empties args w v) :
    WritesOutput args Export.programSuffix w v := by
  obtain ⟨hname, hasked, -, -, hwrites⟩ := h
  exact writesOutput_of_program hname hasked hwrites

theorem compile_writes :
    Runs (fun v => Prepares w v ∨ Empties args w v) (compile args) w fun reply v =>
      WritesOutput args Export.programSuffix w v ∧ ∃ fields, reply = Reply.success fields := by
  unfold compile
  refine (name_runs (Or.inl .unchanged)).bind ?_
  rintro n _ ⟨rfl, hname⟩
  refine (Library.require_runs (Or.inl .unchanged)).bind ?_
  intro a v hasked
  refine (Action.runs_ofOutcome (Or.inl (.asked hasked))).bind ?_
  rintro source _ ⟨rfl, hsource⟩
  have hprogram : Runs _ (Export.program (outputName args n) source) v _ :=
    Library.program_runs hasked
  refine (hprogram.weaken ?_).bind ?_
  · rintro u (hprepares | ⟨hbroken, hwrites⟩)
    · exact Or.inl hprepares
    · exact Or.inr (.intro hname hasked hsource hbroken hwrites)
  · rintro p u ⟨text, -, hwrites⟩
    exact Action.runs_pure ⟨writesOutput_of_program hname hasked hwrites, _, rfl⟩

theorem compile_runs :
    RunsExport (fun v => Prepares w v ∨ Empties args w v) (compile args) w :=
  compile_writes.mono fun _ _ ⟨hwrites, htold⟩ => ⟨fun _ => hwrites.effect, htold⟩

/-- The tempo that a call for a rendering gives, or else the usual one. -/
def tempoGiven (args : Arguments) : Datum := args.getOr "tempo_bpm" (.int Midi.defaultTempo)

/-- What can be written of the rendering of an arrangement is in its file, but a part of it cannot,
or the message cannot tell the tempo. -/
inductive BreaksOff (args : Arguments) (w : Workspace) : Workspace → Prop where
  | intro {n : String} {v u : Workspace} {a : Arrangement} {tempo : Decimal.Number}
      {song : Midi.Song} (hname : Arguments.nameOf (args.get "arrangement") = .ok n)
      (hasked : Asked n w v a) (htempo : tempoOf (tempoGiven args) = .ok tempo)
      (hsong : (Midi.render a tempo Midi.defaultTicksPerBeat).result = .ok song)
      (hfault : song.write.fault ≠ none ∨ ∃ e, tempoText (tempoGiven args) = .error e)
      (hwrites : Library.Writes v.output (Library.midiPath v (outputName args n))
        (.bytes song.write.bytes) v u) : BreaksOff args w u

/-- A rendering needs the output directory only. -/
theorem writesOutput_of_rendering
    {u : Workspace} {a : Arrangement} {content : Content}
    (hname : Arguments.nameOf (args.get "arrangement") = .ok n) (hasked : Asked n w v a)
    (hwrites : Writes v.output (Library.midiPath v (outputName args n)) content v u) :
    WritesOutput args Export.midiSuffix w u :=
  .intro hname hasked (Or.inr (Or.inr rfl)) (.rendering _) hwrites

theorem BreaksOff.writesOutput (h : BreaksOff args w v) :
    WritesOutput args Export.midiSuffix w v := by
  obtain ⟨hname, hasked, -, -, -, hwrites⟩ := h
  exact writesOutput_of_rendering hname hasked hwrites

theorem compileMidi_writes :
    Runs (fun v => Prepares w v ∨ BreaksOff args w v) (compileMidi args) w fun reply v =>
      WritesOutput args Export.midiSuffix w v ∧ ∃ fields, reply = Reply.success fields := by
  unfold compileMidi
  refine (name_runs (Or.inl .unchanged)).bind ?_
  rintro n _ ⟨rfl, hname⟩
  refine (Library.require_runs (Or.inl .unchanged)).bind ?_
  intro a v hasked
  refine (Action.runs_ofExcept (Or.inl (.asked hasked))).bind ?_
  rintro tempo _ ⟨rfl, htempo⟩
  refine (Action.runs_ofOutcome (Or.inl (.asked hasked))).bind ?_
  rintro song _ ⟨rfl, hsong⟩
  have hmidi : Runs _ (Export.midi (outputName args n) song) v _ := Library.midi_runs hasked
  refine (hmidi.weaken ?_).bind ?_
  · rintro u (hprepares | ⟨hfault, hwrites⟩)
    · exact Or.inl hprepares
    · exact Or.inr (.intro hname hasked htempo hsong (Or.inl hfault) hwrites)
  · intro p u hwrites
    refine (Action.runs_ofExcept_of_error fun e he => ?_).bind ?_
    · exact Or.inr (.intro hname hasked htempo hsong (Or.inr ⟨e, he⟩) hwrites)
    · rintro shown _ ⟨rfl, -⟩
      exact Action.runs_pure ⟨writesOutput_of_rendering hname hasked hwrites, _, rfl⟩

theorem compileMidi_runs :
    RunsExport (fun v => Prepares w v ∨ BreaksOff args w v) (compileMidi args) w :=
  compileMidi_writes.mono fun _ _ ⟨hwrites, htold⟩ => ⟨fun _ => hwrites.effect, htold⟩

/-- A call that exports has only prepared to write, or it has written its output. -/
theorem export_call_runs
    {tool suffix : String} (htool : exportSuffix? tool = some suffix) :
    Runs (fun v => Prepares w v ∨ WritesOutput args suffix w v) (Session.toolAction tool args) w
      fun _ v => WritesOutput args suffix w v := by
  unfold exportSuffix? at htool
  split at htool <;> cases htool
  · refine (compile_writes.weaken ?_).mono fun _ _ hv => hv.1
    rintro v (hprepares | hempties)
    · exact Or.inl hprepares
    · exact Or.inr hempties.writesOutput
  · refine (compileMidi_writes.weaken ?_).mono fun _ _ hv => hv.1
    rintro v (hprepares | hbreaks)
    · exact Or.inl hprepares
    · exact Or.inr hbreaks.writesOutput

/-! ## Tools that only look things up -/

theorem listArrangements_runs :
    Runs (QuietEffect target w) (listArrangements args) w fun _ v => QuietEffect target w v := by
  unfold listArrangements
  refine (Action.runs_current (Q := fun _ v => w = v) rfl).bind ?_
  rintro _ _ rfl
  refine (Action.runs_ofOutcome .unchanged).bind ?_
  rintro found _ ⟨rfl, -⟩
  refine (Action.runs_ofExcept .unchanged).bind ?_
  rintro entries _ ⟨rfl, -⟩
  exact Action.runs_pure .unchanged

theorem parseNote_runs :
    Runs (QuietEffect target w) (parseNote args) w fun _ v => QuietEffect target w v := by
  unfold parseNote theory Arguments.token
  refine (Action.runs_ofExcept .unchanged).bind ?_
  rintro token _ ⟨rfl, -⟩
  refine (Action.runs_ofExcept .unchanged).bind ?_
  rintro note _ ⟨rfl, -⟩
  exact Action.runs_pure .unchanged

theorem scaleDegrees_runs :
    Runs (QuietEffect target w) (scaleDegrees args) w fun _ v => QuietEffect target w v := by
  unfold scaleDegrees theory Arguments.token Arguments.integerOr
  refine (Action.runs_ofExcept .unchanged).bind ?_
  rintro token _ ⟨rfl, -⟩
  refine (Action.runs_ofExcept .unchanged).bind ?_
  rintro base _ ⟨rfl, -⟩
  refine (Action.runs_ofExcept .unchanged).bind ?_
  rintro type _ ⟨rfl, -⟩
  refine (Action.runs_ofExcept .unchanged).bind ?_
  rintro octaves _ ⟨rfl, -⟩
  refine (Action.runs_ofExcept .unchanged).bind ?_
  rintro notes _ ⟨rfl, -⟩
  exact Action.runs_pure .unchanged

theorem chordVoicing_runs :
    Runs (QuietEffect target w) (chordVoicing args) w fun _ v => QuietEffect target w v := by
  unfold chordVoicing theory Arguments.token Arguments.integerOr
  refine (Action.runs_ofExcept .unchanged).bind ?_
  rintro token _ ⟨rfl, -⟩
  refine (Action.runs_ofExcept .unchanged).bind ?_
  rintro root _ ⟨rfl, -⟩
  refine (Action.runs_ofExcept .unchanged).bind ?_
  rintro kind _ ⟨rfl, -⟩
  refine (Action.runs_ofExcept .unchanged).bind ?_
  rintro type _ ⟨rfl, -⟩
  refine (Action.runs_ofExcept .unchanged).bind ?_
  rintro inversion _ ⟨rfl, -⟩
  refine (Action.runs_ofExcept .unchanged).bind ?_
  rintro notes _ ⟨rfl, -⟩
  exact Action.runs_pure .unchanged

/-! ## Every call -/

theorem Attempts.quiet (h : Attempts args w v) : QuietEffect target w v := by
  cases h with
  | unchanged => exact .unchanged
  | asked _ hasked => exact .asked hasked

theorem Performs.quiet
    {f : Arrangement → Except Fault Arrangement} (h : Performs args f w v)
    (hedited : ∀ a b, f a = .ok b → Edited a b) :
    QuietEffect (targetOf (args.get "arrangement")) w v := by
  obtain ⟨n, b, hn, u, a, hasked, hb, rfl⟩ := h
  exact .edited hasked (targetOf_of_nameOf hn) (hedited a b hb)

theorem mem_of_find?
    {tool : String} {action : Arguments → Action Datum} (h : find? tool = some action) :
    (tool, action) ∈ all := by
  obtain ⟨before, after, hall, -⟩ := List.lookup_eq_some_iff.1 h
  rw [hall]
  simp

theorem target?_of_editOf?
    {tool : String} {f : Arrangement → Except Fault Arrangement} (hf : editOf? args tool = some f) :
    target? args tool = targetOf (args.get "arrangement") := by
  unfold editOf? at hf
  split at hf <;> cases hf
  all_goals rfl

theorem edit_call_runs
    {tool : String} {f : Arrangement → Except Fault Arrangement} (hf : editOf? args tool = some f) :
    RunsEdit args f (Session.toolAction tool args) w := by
  unfold editOf? at hf
  split at hf <;> cases hf
  · exact addEmptyClip_runs
  · exact addFileClip_runs
  · exact addInstrumentClip_runs
  · exact addTrack_runs
  · exact appendClip_runs
  · exact removeClip_runs
  · exact removeTrack_runs

/-- The tools that change the directory of arrangements. -/
def storeTools : List String := ["sclang_save_arrangement", "sclang_delete_arrangement"]

/-- A tool that neither changes the directory of arrangements nor exports leaves all files as they
are. -/
theorem quiet_call_runs
    {tool : String} (hstore : tool ∉ storeTools) (hexport : exportSuffix? tool = none) :
    Runs (QuietEffect (target? args tool) w) (Session.toolAction tool args) w fun _ v =>
      QuietEffect (target? args tool) w v := by
  cases hf : editOf? args tool with
  | some f =>
      refine ((edit_call_runs hf).weaken fun _ hattempts => hattempts.quiet).mono ?_
      rintro _ v ⟨hperforms, -⟩
      rw [target?_of_editOf? hf]
      exact hperforms.quiet fun _ _ => edited_of_editOf? hf
  | none =>
      unfold Session.toolAction
      split
      · next action hfind =>
        have hmem := mem_of_find? hfind
        simp only [all, List.mem_cons, List.not_mem_nil, or_false, Prod.mk.injEq] at hmem
        rcases hmem with ⟨rfl, rfl⟩ | ⟨rfl, rfl⟩ | ⟨rfl, rfl⟩ | ⟨rfl, rfl⟩ | ⟨rfl, rfl⟩ |
          ⟨rfl, rfl⟩ | ⟨rfl, rfl⟩ | ⟨rfl, rfl⟩ | ⟨rfl, rfl⟩ | ⟨rfl, rfl⟩ | ⟨rfl, rfl⟩ |
          ⟨rfl, rfl⟩ | ⟨rfl, rfl⟩ | ⟨rfl, rfl⟩ | ⟨rfl, rfl⟩ | ⟨rfl, rfl⟩ | ⟨rfl, rfl⟩ |
          ⟨rfl, rfl⟩ | ⟨rfl, rfl⟩ | ⟨rfl, rfl⟩
        · simp [editOf?] at hf
        · simp [editOf?] at hf
        · simp [editOf?] at hf
        · simp [editOf?] at hf
        · simp [editOf?] at hf
        · exact chordVoicing_runs
        · simp [exportSuffix?] at hexport
        · simp [exportSuffix?] at hexport
        · exact createArrangement_runs
        · simp [storeTools] at hstore
        · exact duplicateArrangement_runs
        · refine exportYaml_runs_quiet.mono ?_
          rintro _ v ⟨n, a, -, hasked, -⟩
          exact .asked hasked
        · exact getArrangement_runs
        · exact listArrangements_runs
        · exact parseNote_runs
        · simp [editOf?] at hf
        · simp [editOf?] at hf
        · simp [storeTools] at hstore
        · exact scaleDegrees_runs
        · refine validate_runs_quiet.mono ?_
          rintro _ v ⟨n, a, -, hasked, -⟩
          exact .asked hasked
      · exact Action.runs_fail .unchanged

/-- Whatever a tool is called with, what it leaves is one of the effects of the library. -/
theorem call_runs (tool : String) :
    Runs (Effect (target? args tool) w) (Session.toolAction tool args) w fun _ v =>
      Effect (target? args tool) w v := by
  by_cases hstore : tool ∈ storeTools
  · rcases List.mem_pair.1 hstore with rfl | rfl
    · refine (saveArrangement_runs.weaken fun _ hprepares => hprepares.effect).mono ?_
      rintro _ v ⟨n, u, a, -, hasked, saved, made, files, hsaved, hmake, hwrite, rfl⟩
      exact .saved hasked hmake hsaved hwrite
    · refine (deleteArrangement_runs.weaken fun _ hquiet => hquiet.effect).mono ?_
      rintro _ v ⟨n, hname, hdeletes⟩
      exact hdeletes.effect (targetOf_of_nameOf hname)
  · cases hexport : exportSuffix? tool with
    | none =>
        exact ((quiet_call_runs hstore hexport).weaken fun _ hquiet => hquiet.effect).mono
          fun _ _ hquiet => hquiet.effect
    | some suffix =>
        refine ((export_call_runs hexport).weaken ?_).mono fun _ _ hwrites => hwrites.effect
        rintro v (hprepares | hwrites)
        · exact hprepares.effect
        · exact hwrites.effect

end Arranger.Tool
