import Arranger.Clip
import Arranger.Fault
import Arranger.Theory.Chord
import Arranger.Theory.Rhythm
import Arranger.Track

/-!
# Notation

The steps of a clip are written as tokens.  An event is a rest, a group of MIDI numbers, a note or
a chord in root position; a duration is a number or a letter.  Clips and tracks can be made of parts
that are still to be checked.
-/

namespace Arranger.Notation

/-! ## Events -/

def restTokens : List String := ["rest", "r", "_", "-"]

def isSeparator (c : Char) : Bool := c = ',' || Text.isBlank c

/-- The numbers of a group: runs of ASCII digits between blanks and commas. -/
def numberGroup? (token : List Char) : Option (List (List Char)) :=
  let parts := Text.wordsBy isSeparator token
  if !parts.isEmpty && parts.all (·.all Text.isAsciiDigit) then some parts else none

def readGroup (parts : List (List Char)) : Except TheoryError (List Nat) :=
  parts.mapM fun part => match Text.readNatural part with
    | .ok n => .ok n
    | .error cause => .error (.value (.integer cause))

def pitchNumbers (pitches : List Pitch) : List Nat := pitches.map (·.val)

/-- Reads a chord; a malformed token is reported as an event. -/
def chordEvent (token : String) : Except TheoryError (List Nat) :=
  match Chord.parse token >>= Chord.play with
  | .ok pitches => .ok (pitchNumbers pitches)
  | .error (.token cause) => .error (.token (.event token cause))
  | .error other => .error other

/-- Reads an event: none for a rest, and otherwise the MIDI numbers of a group, which only a clip
confines to their range. -/
def event (token : String) : Except TheoryError (Option (List Nat)) :=
  let chars := Text.strip token.toList
  let stripped := String.ofList chars
  if restTokens.contains (String.ofList (Text.lowered chars)) then .ok none
  else match numberGroup? chars with
    | some parts => some <$> readGroup parts
    | none =>
        if chars.length ≤ 3 then (fun n => some (pitchNumbers n.play)) <$> Note.parse stripped
        else some <$> chordEvent stripped

/-! ## Durations -/

/-- The duration that a token denotes: the number written, or that of its letter. -/
def durationToken (token : String) : List Warning × Float :=
  match Decimal.readNumber? token.toList with
  | some x => ([], x)
  | none => letterDuration (String.ofList (Text.strip token.toList))

/-- Reads a duration given as a number or a token. -/
def duration (d : Datum) : Outcome Float :=
  match d.number? with
  | some n => match n.toFloat? with
    | some x => .value x
    | none => .fail (.number .tooLarge)
  | none => match d with
    | .text token =>
        let (warnings, x) := durationToken token
        ⟨warnings, .ok x⟩
    | other => .fail (.shape (.noNumber other.fullKind))

/-! ## Chords and groups of notes -/

/-- A chord of a whole token, or of a note token and a chord type. -/
def chord (token : String) (type : Option String) : Except TheoryError Chord :=
  match type with
  | none => Chord.parse token
  | some name => do
      let type ← ChordType.parse name
      return ⟨← Note.parse token, type⟩

/-- Something to be played in one step; a group may hold notes only. -/
inductive Playable where
  | rest
  | note (n : Note)
  | chord (c : Chord)
  | group (items : List Playable)

namespace Playable

def kind : Playable → String
  | rest => "NoneType"
  | note _ => "Note"
  | chord _ => "Chord"
  | group _ => "list"

def pitch : Playable → Except Fault Pitch
  | note n => .ok n.midi
  | other => .error (.shape (.noAttribute other.kind "midi"))

/-- The pitches that sound together, or a rest. -/
def play : Playable → Except Fault Group
  | rest => .ok none
  | note n => .ok (some n.play)
  | chord c => match c.play with
    | .ok pitches => .ok (some pitches)
    | .error cause => .error (.theory cause)
  | group items => some <$> items.mapM pitch

end Playable

def play (items : List Playable) : Except Fault (List Group) := items.mapM Playable.play

/-! ## Clips and tracks from their parts -/

/-- The parts of a group as a list; a rest has none. -/
def groupParts : Datum → Except Fault Datum
  | .null => .ok .null
  | d => (d.parts.mapError Fault.shape).map .list

/-- An instrument clip of groups and durations that are still to be checked. -/
def instrumentClip (name instrument notes durations : Datum) : Except Fault InstrumentClip := do
  let groups ← (← notes.parts.mapError Fault.shape).mapM groupParts
  let durations ← durations.parts.mapError Fault.shape
  let given := Datum.record [("name", name), ("instrument", instrument),
    ("notes", .list groups), ("durations", .list durations)]
  ((InstrumentClip.readFields given).titled InstrumentClip.title).mapError .rejected

def emptyClip (name duration : Datum) : Except Fault EmptyClip :=
  ((EmptyClip.readFields (.record [("name", name), ("duration", duration)])).titled
    EmptyClip.title).mapError .rejected

def fileClip (name path : Datum) : Except Fault FileClip :=
  ((FileClip.readFields (.record [("name", name), ("path", path)])).titled
    FileClip.title).mapError .rejected

def track (name : Datum) (clips : List Datum) : Except Fault Track :=
  ((Track.readFields (.record [("name", name), (Track.clipsField, .list clips)])).titled
    Track.title).mapError .rejected

end Arranger.Notation
