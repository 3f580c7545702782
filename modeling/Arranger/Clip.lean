import Arranger.Schema.Field
import Arranger.Theory.Note

/-!
# Clips

A clip is a named piece of sound: an instrument playing groups of pitches, a sound file, or a
silence.  The groups of an instrument clip and its durations are two lists that need not be equally
long until the clip is compiled.
-/

namespace Arranger

open Schema (Name Checked Rejection)

/-- The pitches of one step, or a rest. -/
abbrev Group := Option (List Pitch)

structure InstrumentClip where
  name : Name
  instrument : Name
  notes : List Group
  durations : List Float

structure FileClip where
  name : Name
  path : Name
  deriving DecidableEq

structure EmptyClip where
  name : Name
  duration : Float

inductive Clip where
  | instrument (c : InstrumentClip)
  | file (c : FileClip)
  | empty (c : EmptyClip)

/-! ## Documents of clips -/

def Group.datum : Group → Datum
  | none => .null
  | some pitches => .list (pitches.map fun p => .int p.val)

namespace InstrumentClip

def datum (c : InstrumentClip) : Datum :=
  .record [("kind", .text "instrument"), ("name", .text c.name), ("instrument", .text c.instrument),
    ("notes", .list (c.notes.map Group.datum)), ("durations", .list (c.durations.map .float))]

def lengthsAgree (c : InstrumentClip) : Bool := c.notes.length = c.durations.length

/-- The sum of the durations from left to right; without durations it is whole. -/
def totalDuration (c : InstrumentClip) : Decimal.Number :=
  match c.durations with
  | [] => .whole 0
  | durations => .real (durations.foldl (· + ·) 0.0)

def readPitch (d : Datum) : Checked Pitch :=
  (Schema.readIntegerBetween 0 127 d).map fun i =>
    ⟨i.val.toNat, by have := i.property; omega⟩

def readGroup : Datum → Checked Group := Schema.readOptional (Schema.readItems readPitch)

open Schema in
/-- Reads the fields of an instrument clip. -/
def readFields (d : Datum) : Checked InstrumentClip :=
  let kind := fieldOr "kind" () (readLiteral "instrument") d
  let name := field "name" readName d
  let instrument := field "instrument" readName d
  let notes := fieldOr "notes" [] (readItems readGroup) d
  let durations := fieldOr "durations" [] (readItems readNumber) d
  (Checked.both kind (.both name (.both instrument (.both notes durations)))).map
    fun (_, name, instrument, notes, durations) => ⟨name, instrument, notes, durations⟩

def title : String := "InstrumentClip"

end InstrumentClip

namespace FileClip

def datum (c : FileClip) : Datum :=
  .record [("kind", .text "file"), ("name", .text c.name), ("path", .text c.path)]

open Schema in
def readFields (d : Datum) : Checked FileClip :=
  let kind := fieldOr "kind" () (readLiteral "file") d
  let name := field "name" readName d
  let path := field "path" readName d
  (Checked.both kind (.both name path)).map fun (_, name, path) => ⟨name, path⟩

def title : String := "FileClip"

end FileClip

namespace EmptyClip

def datum (c : EmptyClip) : Datum :=
  .record [("kind", .text "empty"), ("name", .text c.name), ("duration", .float c.duration)]

open Schema in
def readFields (d : Datum) : Checked EmptyClip :=
  let kind := fieldOr "kind" () (readLiteral "empty") d
  let name := field "name" readName d
  let duration := field "duration" readNumber d
  (Checked.both kind (.both name duration)).map fun (_, name, duration) => ⟨name, duration⟩

def title : String := "EmptyClip"

end EmptyClip

namespace Clip

def name : Clip → String
  | instrument c => c.name
  | file c => c.name
  | empty c => c.name

def datum : Clip → Datum
  | instrument c => c.datum
  | file c => c.datum
  | empty c => c.datum

def kinds : List String := ["instrument", "file", "empty"]

/-- Reads a clip of the kind that its document names. -/
def read (d : Datum) : Checked Clip :=
  match d.view with
  | .map fields => match Datum.lookup fields "kind" with
    | none => Checked.reject .noKind d
    | some (.text "instrument") =>
        (Checked.below (.field "instrument") (InstrumentClip.readFields d)).map .instrument
    | some (.text "file") =>
        (Checked.below (.field "file") (FileClip.readFields d)).map .file
    | some (.text "empty") =>
        (Checked.below (.field "empty") (EmptyClip.readFields d)).map .empty
    | some kind => Checked.reject (.unknownKind kind.bareText kinds) d
  | _ => Checked.reject .noRecord d

def title : String := "tagged-union[InstrumentClip,FileClip,EmptyClip]"

end Clip

/-- The value that a document stands for, or the rejection of the document. -/
def Schema.Checked.titled {α : Type} (title : String) : Checked α → Except Rejection α
  | .ok a => .ok a
  | .error issues => .error ⟨title, issues⟩

namespace Clip

def ofDatum (d : Datum) : Except Rejection Clip := (read d).titled title

end Clip

end Arranger
