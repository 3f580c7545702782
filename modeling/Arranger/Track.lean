import Arranger.Schema.Field

/-!
# Tracks

A track is a playback lane: the names of the clips that play one after another.  The names need not
be those of any clips, and may even be broken texts.
-/

namespace Arranger

open Schema (Name Checked)

structure Track where
  name : Name
  clips : List Label
  deriving DecidableEq

namespace Track

def title : String := "Track"

def append (t : Track) (clip : Label) : Track := { t with clips := t.clips ++ [clip] }

/-- The document of a track in an arrangement. -/
def datum (t : Track) : Datum := .record [("name", .text t.name), ("clips", .labels t.clips)]

def clipsField : String := "clip_names"

/-- The fields of a track that stands for itself. -/
def fields (t : Track) : Datum := .record [("name", .text t.name), (clipsField, .labels t.clips)]

open Schema in
def readFields (d : Datum) : Checked Track :=
  let name := field "name" readName d
  let clips := fieldOr clipsField [] (readItems readLabel) d
  (Checked.both name clips).map fun (name, clips) => ⟨name, clips⟩

def read (d : Datum) : Checked Track :=
  match d.view with
  | .map _ => readFields d
  | _ => Checked.reject (.noInstance title) d

end Track

end Arranger
