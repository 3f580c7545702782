import Arranger.Arrangement.Basic

/-!
# Documents of arrangements

The document of an arrangement is a map with its schema, its name, its clips and its tracks.  When
one is read, every field may be left out; values are coerced where the schema of their part says
so.
-/

namespace Arranger

open Schema (Checked fieldOr readItems readLabel readLiteral)

namespace Arrangement

def schema : String := "arrangement/v1"

def defaultName : String := "arrangement"

def title : String := "Arrangement"

def datum (a : Arrangement) : Datum :=
  .record [("schema", .text schema), ("name", .ofLabel a.name),
    ("clips", .list (a.clips.map Clip.datum)), ("tracks", .list (a.tracks.map Track.datum))]

/-- The fields of an arrangement that stands for itself. -/
def fields (a : Arrangement) : Datum :=
  .record [("schema_version", .text schema), ("name", .ofLabel a.name),
    ("tracks", .list (a.tracks.map Track.fields)), ("clips", .list (a.clips.map Clip.datum))]

/-- Reads the schema, of which there is one, and the name. -/
def readHead (d : Datum) : Checked (Unit × Label) :=
  (fieldOr "schema_version" () (readLiteral schema) d).both
    (fieldOr "name" (.text defaultName) readLabel d)

/-- Reads the fields of an arrangement that stands for itself. -/
def readFields (d : Datum) : Checked Arrangement :=
  let tracks := fieldOr "tracks" [] (readItems Track.read) d
  let clips := fieldOr "clips" [] (readItems Clip.read) d
  ((readHead d).both (tracks.both clips)).map
    fun ((_, name), tracks, clips) => ⟨name, clips, tracks⟩

def ofRejection {α : Type} (x : Except Schema.Rejection α) : Except Fault α :=
  x.mapError .rejected

def ofShape {α : Type} (x : Except ShapeError α) : Except Fault α := x.mapError .shape

def partsOr (fields : List (Datum × Datum)) (key : String) : Except Fault (List Datum) :=
  ofShape ((Datum.lookup fields key).getD (.list [])).parts

def clipOfDatum (d : Datum) : Except Fault Clip := ofRejection (Clip.ofDatum d)

/-- Reads a track of a document; its name must be there. -/
def trackOfDatum (d : Datum) : Except Fault Track := do
  let name ← ofShape (d.fieldOf "name")
  let clips ← partsOr (← ofShape d.fields) "clips"
  let given := Datum.record [("name", name), (Track.clipsField, .list clips)]
  ofRejection ((Track.readFields given).titled Track.title)

/-- Reads an arrangement: its clips, then its tracks, then its schema and name. -/
def ofDatum (d : Datum) : Except Fault Arrangement := do
  let fields ← ofShape d.fields
  let clips ← (← partsOr fields "clips").mapM clipOfDatum
  let tracks ← (← partsOr fields "tracks").mapM trackOfDatum
  let given := Datum.record
    [("schema_version", (Datum.lookup fields "schema").getD (.text schema)),
      ("name", (Datum.lookup fields "name").getD (.text defaultName))]
  let (_, name) ← ofRejection ((readHead given).titled title)
  return ⟨name, clips, tracks⟩

end Arrangement

end Arranger
