import Arranger.Arrangement.Basic
import Arranger.Text.Digit
import Arranger.Text.Letter

/-!
# Diagnostics

An arrangement is checked for what would not play as intended.  The findings are told in order:
about each clip, about each track and unused clip, and about each name.  A report shows them as
remarks with a severity and a code; it is valid if no remark is an error.
-/

namespace Arranger

inductive Severity where
  | error
  | warning
  | info
  deriving DecidableEq, Repr

def Severity.name : Severity → String
  | .error => "error"
  | .warning => "warning"
  | .info => "info"

def Severity.label : Severity → String
  | .error => "ERROR"
  | .warning => "WARNING"
  | .info => "INFO"

structure Remark where
  severity : Severity
  code : String
  message : Label
  location : Option String
  deriving DecidableEq, Repr

def Remark.text (r : Remark) : Label :=
  let place := match r.location with
    | none => ""
    | some location => if location.isEmpty then "" else s!" at {location}"
  s!"[{r.severity.label}] {r.code}: " ++ r.message ++ place

abbrev Report := List Remark

namespace Report

def ofSeverity (severity : Severity) (r : Report) : List Remark :=
  r.filter (·.severity = severity)

def isValid (r : Report) : Bool := (r.ofSeverity .error).isEmpty

/-- The codes that occur, each once, in ascending order. -/
def codes (r : Report) : List String :=
  (r.map Remark.code).eraseDups.mergeSort fun a b => !(b < a)

def text (r : Report) : Label :=
  if r.isEmpty then "Validation passed: no issues found"
  else .join ((r.map Remark.text).intersperse "\n")

end Report

/-! ## Findings -/

inductive Finding where
  | lengths (clip : String) (groups durations : Nat)
  | durationOfClip (clip : String)
  | durationOfEmptyClip (clip : String)
  | fileClip (clip : String)
  | noTracks
  | emptyTrack (track : String)
  | unknownClip (track : String) (clip : Label)
  | unusedClip (clip : String)
  | duplicateName (name : String)
  | identifier (name : String)
  deriving DecidableEq, Repr

namespace Finding

def severity : Finding → Severity
  | lengths _ _ _ => .error
  | durationOfClip _ => .error
  | durationOfEmptyClip _ => .error
  | fileClip _ => .warning
  | noTracks => .info
  | emptyTrack _ => .info
  | unknownClip _ _ => .warning
  | unusedClip _ => .info
  | duplicateName _ => .warning
  | identifier _ => .warning

def code : Finding → String
  | lengths _ _ _ => "LENGTH_MISMATCH"
  | durationOfClip _ => "NON_POSITIVE_DURATION"
  | durationOfEmptyClip _ => "NON_POSITIVE_DURATION"
  | fileClip _ => "FILE_CLIP_STUB"
  | noTracks => "NO_TRACKS"
  | emptyTrack _ => "EMPTY_TRACK"
  | unknownClip _ _ => "UNKNOWN_CLIP_REF"
  | unusedClip _ => "UNUSED_CLIP"
  | duplicateName _ => "DUPLICATE_NAME"
  | identifier _ => "INVALID_IDENTIFIER"

def message : Finding → Label
  | lengths clip groups durations => lengthsMessage clip groups durations
  | durationOfClip clip => s!"Clip '{clip}' has a zero or negative duration"
  | durationOfEmptyClip clip => s!"Empty clip '{clip}' has a zero or negative duration"
  | fileClip clip =>
      s!"File clip '{clip}' has no finished lowering and compiles only as a placeholder"
  | noTracks => "Arrangement has no tracks; nothing will play"
  | emptyTrack track => s!"Track '{track}' has no clips"
  | unknownClip track clip => s!"Track '{track}' references unknown clip: " ++ clip
  | unusedClip clip => s!"Clip '{clip}' is not used by any track"
  | duplicateName name => s!"Name '{name}' is declared more than once"
  | identifier name => s!"'{name}' is not a valid sclang variable name"

def location : Finding → String
  | lengths clip _ _ => s!"clips/{clip}"
  | durationOfClip clip => s!"clips/{clip}"
  | durationOfEmptyClip clip => s!"clips/{clip}"
  | fileClip clip => s!"clips/{clip}"
  | noTracks => "tracks"
  | emptyTrack track => s!"tracks/{track}"
  | unknownClip track _ => s!"tracks/{track}"
  | unusedClip clip => s!"clips/{clip}"
  | duplicateName _ => "names"
  | identifier _ => "names"

def remark (f : Finding) : Remark := ⟨f.severity, f.code, f.message, some f.location⟩

end Finding

/-! ## Checks -/

/-- Whether a duration is zero or negative; the undefined number is neither. -/
def isNonPositive (x : Float) : Bool := x ≤ 0.0

def clipFindings : Clip → List Finding
  | .instrument c =>
      (if c.lengthsAgree then [] else [.lengths c.name c.notes.length c.durations.length]) ++
        (if c.durations.any isNonPositive then [.durationOfClip c.name] else [])
  | .empty c => if isNonPositive c.duration then [.durationOfEmptyClip c.name] else []
  | .file c => [.fileClip c.name]

def isIdentifierChar (c : Char) : Bool := Text.isLetter c || Text.isAsciiDigit c || c = '_'

/-- A lower case letter, then letters, digits and underscores; a line break may follow. -/
def isIdentifier (name : String) : Bool :=
  match name.toList with
  | [] => false
  | first :: rest =>
      let body := if rest.getLast? = some '\n' then rest.dropLast else rest
      Text.isLowerLetter first && body.all isIdentifierChar

def trackFindings (clipNames : List Label) (t : Track) : List Finding :=
  (if t.clips.isEmpty then [.emptyTrack t.name] else []) ++
    (t.clips.filter (!clipNames.contains ·)).map (.unknownClip t.name ·)

/-- The findings about one name after another; `seen` are the names in front. -/
def nameFindings (seen : List String) : List String → List Finding
  | [] => []
  | name :: rest =>
      (if seen.contains name then [.duplicateName name] else []) ++
        (if isIdentifier name then [] else [.identifier name]) ++ nameFindings (name :: seen) rest

namespace Arrangement

/-- The names that tracks refer to. -/
def references (a : Arrangement) : List Label := a.tracks.flatMap (·.clips)

def trackFindings (a : Arrangement) : List Finding :=
  if a.tracks.isEmpty then [.noTracks]
  else
    a.tracks.flatMap (Arranger.trackFindings a.clipLabels) ++
      (a.clipNames.filter fun name => !a.references.contains (.text name)).map .unusedClip

def findings (a : Arrangement) : List Finding :=
  a.clips.flatMap clipFindings ++ a.trackFindings ++ nameFindings [] a.names

def report (a : Arrangement) : Report := a.findings.map Finding.remark

end Arrangement

end Arranger
