import Arranger.Diagnostics
import Arranger.Notation
import Arranger.Workspace.Export
import Arranger.Workspace.Library
import Arranger.Workspace.Reply

/-!
# Tools

The tools make, change, save and list arrangements, add clips and tracks to them, look up notes,
scales and chords, and write programs and renderings.  Each has a name under which it is called.
-/

namespace Arranger.Tool

open Reply (success)

/-! ## Arrangements -/

def summary (a : Arrangement) : Datum :=
  .record [("name", .ofLabel a.name), ("clips", Reply.count a.clips.length),
    ("tracks", Reply.count a.tracks.length)]

def createArrangement (args : Arguments) : Action Datum := do
  let a ← Library.create (args.get "name")
  return success [("arrangement", summary a)]

def getArrangement (args : Arguments) : Action Datum := do
  let a ← Library.require (← args.name "name")
  return success [("arrangement", a.datum)]

def listed (l : Library.Listing) : Except Fault Datum := do
  let name ← (Reply.portable l.name).mapError .shape
  return .record [("name", name), ("clips", Reply.count l.clips), ("tracks", Reply.count l.tracks)]

def listArrangements (_ : Arguments) : Action Datum := do
  let found ← Action.ofOutcome (Library.list (← Action.current))
  let entries ← Action.ofExcept (found.mapM listed)
  return success [("arrangements", .list entries)]

def saveArrangement (args : Arguments) : Action Datum := do
  let a ← Library.require (← args.name "name")
  let p ← Library.save a
  return success
    [("message", .text s!"Arrangement saved to {p.text}"), ("path", .text p.text)]

def deleteArrangement (args : Arguments) : Action Datum := do
  let name ← args.name "name"
  if ← Library.delete name then
    return success [("message", .text s!"Arrangement '{name}' deleted")]
  else Action.fail (.missing .arrangement name)

def duplicateArrangement (args : Arguments) : Action Datum := do
  let a ← Library.duplicate (← args.name "name") (args.get "new_name")
  return success
    [("message", .ofLabel ("Created duplicate: " ++ a.name)), ("arrangement", summary a)]

/-! ## Clips and tracks -/

def addedClip (arrangement : String) (clip : Clip) : Action Datum := do
  let _ ← Library.addClip arrangement clip
  return success
    [("message", .text s!"Added clip '{clip.name}' to '{arrangement}'"), ("clip", clip.datum)]

def eventDatum : Option (List Nat) → Datum
  | none => .null
  | some numbers => .list (numbers.map Reply.count)

def readEvent (d : Datum) : Except Fault Datum := do
  let token ← Arguments.eventOf d
  return eventDatum (← (Notation.event token).mapError .theory)

def readDurations : List Datum → Outcome (List Datum)
  | [] => .value []
  | d :: rest =>
      (Notation.duration d).andThen fun x =>
        (readDurations rest).andThen fun more => .value (.float x :: more)

/-- The instrument clip that tokens describe, of which there are as many for its notes as for its
durations. -/
def instrumentClip (name instrument notes durations : Datum) : Outcome InstrumentClip :=
  (Outcome.of (notes.length.mapError .shape)).andThen fun noteCount =>
    (Outcome.of (durations.length.mapError .shape)).andThen fun durationCount =>
      if noteCount != durationCount then .fail (.tokenCounts noteCount durationCount)
      else
        (Outcome.of (do (← notes.parts.mapError .shape).mapM readEvent)).andThen fun groups =>
          (Outcome.of (durations.parts.mapError .shape)).andThen fun tokens =>
            (readDurations tokens).andThen fun values =>
              .of (Notation.instrumentClip name instrument (.list groups) (.list values))

def defaultInstrument : String := "sine"

def addInstrumentClip (args : Arguments) : Action Datum := do
  let clip ← Action.ofOutcome <| instrumentClip (args.get "name")
    (args.getOr "instrument" (.text defaultInstrument)) (args.get "notes") (args.get "durations")
  addedClip (← args.name "arrangement") (.instrument clip)

def addEmptyClip (args : Arguments) : Action Datum := do
  let duration ← Action.ofOutcome (Notation.duration (args.get "duration"))
  let clip ← Action.ofExcept (Notation.emptyClip (args.get "name") (.float duration))
  addedClip (← args.name "arrangement") (.empty clip)

def addFileClip (args : Arguments) : Action Datum := do
  let clip ← Action.ofExcept (Notation.fileClip (args.get "name") (args.get "path"))
  addedClip (← args.name "arrangement") (.file clip)

def removeClip (args : Arguments) : Action Datum := do
  let name := (args.get "name").bareText
  let a ← Library.removeClip (← args.name "arrangement") name
  return success [("message", .text s!"Removed clip '{name}'"), ("clips", .texts a.clipNames)]

def addTrack (args : Arguments) : Action Datum := do
  let clips := if (args.get "clips").isGiven then args.get "clips" else .list []
  let track : Except Fault Track := do
    Notation.track (args.get "name") (← clips.parts.mapError .shape)
  let arrangement ← args.name "arrangement"
  let _ ← Library.addTrack arrangement track
  let name := args.get "name"
  return success
    [("message", .text s!"Added track '{name.bareText}' to '{arrangement}'"),
     ("track", .record [("name", name), ("clips", clips)])]

def appendClip (args : Arguments) : Action Datum := do
  let track := (args.get "track").bareText
  let a ← Library.appendClip (← args.name "arrangement") track (args.get "clip").bareText
  let clips := (a.track? track).elim [] (·.clips)
  return success [("track", .record [("name", .text track), ("clips", .labels clips)])]

def removeTrack (args : Arguments) : Action Datum := do
  let name := (args.get "name").bareText
  let a ← Library.removeTrack (← args.name "arrangement") name
  return success [("message", .text s!"Removed track '{name}'"), ("tracks", .texts a.trackNames)]

/-! ## Notes, scales and chords -/

def theory {α : Type} (x : Except TheoryError α) : Action α := .ofExcept (x.mapError .theory)

def parseNote (args : Arguments) : Action Datum := do
  let n ← theory (Note.parse (← args.token "note"))
  return success
    [("note", Reply.note n), ("pitch_class", .text n.pitchClass.name), ("octave", .int n.octave)]

def scaleType (d : Datum) : Except TheoryError ScaleType :=
  match d with
  | .text name => ScaleType.named name
  | other => .error (.value (.scaleTypeValue other.shown))

def scaleDegrees (args : Arguments) : Action Datum := do
  let base ← theory (Note.parse (← args.token "base"))
  let type ← theory (scaleType (args.getOr "scale_type" (.text "major")))
  let scale : Scale := ⟨base, type⟩
  let notes ← theory (scale.notes (← args.integerOr "octaves" 1))
  return success
    [("scale", .text scale.text), ("formula", .list (scale.formula.map Reply.count)),
     ("notes", .list (notes.map Reply.note))]

def chordVoicing (args : Arguments) : Action Datum := do
  let root ← theory (Note.parse (← args.token "root"))
  let type ← theory (ChordType.parse
    (← Action.ofExcept (Arguments.eventOf (args.get "chord_type"))))
  let chord : Chord := ⟨root, type⟩
  let inversion ← args.integerOr "inversion" 0
  let notes ← theory (chord.voicing inversion)
  return success
    [("chord", .text chord.text), ("inversion", .int inversion),
     ("formula", .texts (chord.formula.map Numeral.text)),
     ("notes", .list (notes.map Reply.note)),
     ("midi", .list (notes.map fun n => .int n.midi.val))]

/-! ## Programs, renderings and reports -/

/-- The name of an output file: the one given, or that of the arrangement. -/
def outputName (args : Arguments) (arrangement : String) : String :=
  let given := args.get "output_name"
  if given.isGiven then given.bareText else arrangement

def compile (args : Arguments) : Action Datum := do
  let name ← args.name "arrangement"
  let a ← Library.require name
  let source ← Action.ofOutcome (Program.source (args.get "allow_stubs").isGiven a)
  let p ← Export.program (outputName args name) source
  let compilation := Datum.record
    [("variables", .texts a.names), ("clips", .texts a.clipNames), ("tracks", .texts a.trackNames)]
  let shown := if (args.getOr "include_source" (.bool true)).isGiven
    then [("source", Datum.ofLabel source)] else []
  return success
    ([("path", .text p.text), ("compilation", compilation),
      ("message", .text s!"Compiled arrangement '{name}' to {p.text}")] ++ shown)

def tempoOf (d : Datum) : Except Fault Decimal.Number :=
  match d.number? with
  | some n => .ok n
  | none => .error (.shape (.noDivisor d.fullKind))

/-- A tempo in a message; a whole number with too many digits is not written. -/
def tempoText : Datum → Except Fault String
  | .int i => (toString <$> Reply.portableInteger i).mapError .shape
  | other => .ok other.bareText

/-- Renders an arrangement.  The tempo is written into the message after the file. -/
def compileMidi (args : Arguments) : Action Datum := do
  let name ← args.name "arrangement"
  let a ← Library.require name
  let given := args.getOr "tempo_bpm" (.int Midi.defaultTempo)
  let tempo ← Action.ofExcept (tempoOf given)
  let song ← Action.ofOutcome (Midi.render a tempo Midi.defaultTicksPerBeat)
  let p ← Export.midi (outputName args name) song
  let shown ← Action.ofExcept (tempoText given)
  return success
    [("path", .text p.text), ("tracks", Reply.count (song.tracks.length - 1)),
     ("notes", Reply.count song.noteCount),
     ("message", .text s!"Rendered {song.noteCount} notes at {shown} bpm")]

def exportYaml (args : Arguments) : Action Datum := do
  let a ← Library.require (← args.name "arrangement")
  return success [("yaml", .text (Yaml.write a.datum))]

def remark (r : Remark) : Datum :=
  .record [("code", .text r.code), ("message", .ofLabel r.message),
    ("location", r.location.elim .null .text)]

def remarks (severity : Severity) (report : Report) : Datum :=
  .list ((report.ofSeverity severity).map remark)

def validate (args : Arguments) : Action Datum := do
  let a ← Library.require (← args.name "arrangement")
  let report := a.report
  return success
    [("valid", .bool report.isValid), ("errors", remarks .error report),
     ("warnings", remarks .warning report), ("info", remarks .info report)]

/-! ## Calls -/

/-- The tools by name, in ascending order. -/
def all : List (String × (Arguments → Action Datum)) :=
  [("sclang_add_empty_clip", addEmptyClip),
   ("sclang_add_file_clip", addFileClip),
   ("sclang_add_instrument_clip", addInstrumentClip),
   ("sclang_add_track", addTrack),
   ("sclang_append_clip", appendClip),
   ("sclang_chord_voicing", chordVoicing),
   ("sclang_compile", compile),
   ("sclang_compile_midi", compileMidi),
   ("sclang_create_arrangement", createArrangement),
   ("sclang_delete_arrangement", deleteArrangement),
   ("sclang_duplicate_arrangement", duplicateArrangement),
   ("sclang_export_yaml", exportYaml),
   ("sclang_get_arrangement", getArrangement),
   ("sclang_list_arrangements", listArrangements),
   ("sclang_parse_note", parseNote),
   ("sclang_remove_clip", removeClip),
   ("sclang_remove_track", removeTrack),
   ("sclang_save_arrangement", saveArrangement),
   ("sclang_scale_degrees", scaleDegrees),
   ("sclang_validate", validate)]

def names : List String := all.map (·.1)

/-- The tool of a name. -/
def find? (name : String) : Option (Arguments → Action Datum) := all.lookup name

end Arranger.Tool
