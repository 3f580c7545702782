import Arranger.Arrangement.Document
import Mathlib.Data.List.Basic

/-!
# Arrangements from their documents

The document of an arrangement is read as the same arrangement: every clip and track passes its own
checks, and nothing is coerced.
-/

namespace Arranger

open Schema (Checked Name field fieldOr readItems readLabel readLiteral readName readNumber)

/-! ## Fields -/

namespace Datum

@[simp]
theorem lookup_nil (key : String) : lookup [] key = none := rfl

@[simp]
theorem lookup_text_cons
    (name key : String) (value : Datum) (rest : List (Datum × Datum)) :
    lookup ((.text name, value) :: rest) key =
      if name = key then some value else lookup rest key := by
  by_cases heq : name = key
  · simp [lookup, sameKey, heq]
  · simp [lookup, sameKey, heq]

@[simp]
theorem parts_list (items : List Datum) : (list items).parts = .ok items := rfl

@[simp]
theorem get?_record_cons (name key : String) (value : Datum) (rest : List (String × Datum)) :
    (record ((name, value) :: rest)).get? key =
      if name = key then some value else (record rest).get? key := by
  have hget : ∀ entries, (map entries).get? key = lookup entries key := fun _ => rfl
  rw [record, record, hget, hget, List.map_cons, lookup_text_cons]

end Datum

namespace Schema

@[simp]
theorem Checked.both_ok {α β : Type} (a : α) (b : β) :
    Checked.both (.ok a) (.ok b) = .ok (a, b) := rfl

variable {α : Type} {name : String} {read : Datum → Checked α} {d value : Datum} {a : α}

theorem field_of_get? (hget : d.get? name = some value) (hread : read value = .ok a) :
    field name read d = .ok a := by
  simp [field, hget, hread, Checked.below]

theorem fieldOr_of_get? {fallback : α}
    (hget : d.get? name = some value) (hread : read value = .ok a) :
    fieldOr name fallback read d = .ok a := by
  simp [fieldOr, hget, hread, Checked.below]

theorem readItems_map
    {write : α → Datum} {xs : List α}
    (hread : ∀ x ∈ xs, read (write x) = .ok x) : readItems read (.list (xs.map write)) = .ok xs := by
  suffices hfrom : ∀ i, Checked.itemsFrom read i (xs.map write) = .ok xs from hfrom 0
  induction xs with
  | nil => exact fun i => rfl
  | cons x rest ih =>
      intro i
      have hx := hread x (by simp)
      have hrest := ih (fun y hy => hread y (by simp [hy])) (i + 1)
      simp [Checked.itemsFrom, hx, hrest, Checked.below, Except.map]

@[simp]
theorem readLabel_ofLabel (l : Label) : readLabel (.ofLabel l) = .ok l := by
  cases l <;> rfl

theorem readName_text (n : Name) : readName (.text n.val) = .ok n := by
  simp [readName, readTextOr, readLabelOr, n.property, bind, Except.bind]

theorem readLiteral_text (s : String) : readLiteral s (.text s) = .ok () := by
  simp [readLiteral]

end Schema

open Schema

/-! ## Clips and tracks -/

theorem readPitch_int (p : Pitch) : InstrumentClip.readPitch (.int p.val) = .ok p := by
  have hlow : ¬(p.val : Int) < 0 := by omega
  have hhigh : ¬127 < (p.val : Int) := by omega
  simp [InstrumentClip.readPitch, readIntegerBetween, readInteger, hlow, hhigh, bind, Except.bind,
    Except.map]

theorem readGroup_datum (g : Group) : InstrumentClip.readGroup g.datum = .ok g := by
  cases g with
  | none => rfl
  | some pitches =>
      have hitems : readItems InstrumentClip.readPitch
          (.list (pitches.map fun p => .int p.val)) = .ok pitches :=
        readItems_map fun p _ => readPitch_int p
      simp [InstrumentClip.readGroup, Group.datum, readOptional, hitems, Except.map]

theorem InstrumentClip.readFields_datum (c : InstrumentClip) : readFields c.datum = .ok c := by
  have hnotes : readItems readGroup (.list (c.notes.map Group.datum)) = .ok c.notes :=
    readItems_map fun g _ => readGroup_datum g
  have hdurations : readItems readNumber (.list (c.durations.map .float)) = .ok c.durations :=
    readItems_map fun x _ => rfl
  unfold readFields datum
  rw [fieldOr_of_get? (by simp) (readLiteral_text "instrument"),
    field_of_get? (by simp) (readName_text c.name),
    field_of_get? (by simp) (readName_text c.instrument),
    fieldOr_of_get? (by simp) hnotes, fieldOr_of_get? (by simp) hdurations]
  rfl

theorem FileClip.readFields_datum (c : FileClip) : readFields c.datum = .ok c := by
  unfold readFields datum
  rw [fieldOr_of_get? (by simp) (readLiteral_text "file"),
    field_of_get? (by simp) (readName_text c.name),
    field_of_get? (by simp) (readName_text c.path)]
  rfl

theorem EmptyClip.readFields_datum (c : EmptyClip) : readFields c.datum = .ok c := by
  have hduration : readNumber (.float c.duration) = .ok c.duration := rfl
  unfold readFields datum
  rw [fieldOr_of_get? (by simp) (readLiteral_text "empty"),
    field_of_get? (by simp) (readName_text c.name),
    field_of_get? (by simp) hduration]
  rfl

theorem Clip.read_datum (c : Clip) : Clip.read c.datum = .ok c := by
  cases c with
  | instrument c =>
      have hfields := c.readFields_datum
      simp only [InstrumentClip.datum, Datum.record, List.map_cons, List.map_nil] at hfields
      simp only [Clip.datum, InstrumentClip.datum, Datum.record, List.map_cons, List.map_nil,
        Clip.read, Datum.view, Datum.lookup_text_cons, if_true, hfields]
      rfl
  | file c =>
      have hfields := c.readFields_datum
      simp only [FileClip.datum, Datum.record, List.map_cons, List.map_nil] at hfields
      simp only [Clip.datum, FileClip.datum, Datum.record, List.map_cons, List.map_nil,
        Clip.read, Datum.view, Datum.lookup_text_cons, if_true, hfields]
      rfl
  | empty c =>
      have hfields := c.readFields_datum
      simp only [EmptyClip.datum, Datum.record, List.map_cons, List.map_nil] at hfields
      simp only [Clip.datum, EmptyClip.datum, Datum.record, List.map_cons, List.map_nil,
        Clip.read, Datum.view, Datum.lookup_text_cons, if_true, hfields]
      rfl

theorem Track.readFields_fields (t : Track) : readFields t.fields = .ok t := by
  have hclips : readItems readLabel (.labels t.clips) = .ok t.clips :=
    readItems_map fun l _ => readLabel_ofLabel l
  unfold readFields fields
  rw [field_of_get? (by simp) (readName_text t.name),
    fieldOr_of_get? (by simp [clipsField]) hclips]
  rfl

/-! ## Arrangements -/

namespace Arrangement

theorem mapM_map_ok
    {α β ε : Type} {read : β → Except ε α} {write : α → β} {xs : List α}
    (hread : ∀ x ∈ xs, read (write x) = .ok x) : (xs.map write).mapM read = .ok xs := by
  induction xs with
  | nil => rfl
  | cons x rest ih =>
      have hx := hread x (by simp)
      have hrest := ih fun y hy => hread y (by simp [hy])
      rw [List.map_cons, List.mapM_cons, hx, hrest]
      rfl

/-- The entries of the document of an arrangement. -/
def entries (a : Arrangement) : List (Datum × Datum) :=
  [(.text "schema", .text schema), (.text "name", .ofLabel a.name),
    (.text "clips", .list (a.clips.map Clip.datum)),
    (.text "tracks", .list (a.tracks.map Track.datum))]

theorem clipOfDatum_datum (c : Clip) : clipOfDatum c.datum = .ok c := by
  simp [clipOfDatum, Clip.ofDatum, c.read_datum, Checked.titled, ofRejection, Except.mapError]

theorem trackOfDatum_datum (t : Track) : trackOfDatum t.datum = .ok t := by
  have hfields : Track.readFields (.record [("name", .text t.name),
      (Track.clipsField, .list (t.clips.map .ofLabel))]) = .ok t := t.readFields_fields
  have hname : t.datum.fieldOf "name" = .ok (.text t.name) := by
    simp [Track.datum, Datum.record, Datum.fieldOf, Datum.view]
  have hparts : partsOr [(.text "name", .text t.name), (.text "clips", .labels t.clips)] "clips" =
      .ok (t.clips.map .ofLabel) := by
    simp [partsOr, Datum.labels, ofShape, Except.mapError]
  unfold trackOfDatum
  rw [hname]
  simp only [Track.datum, Datum.fields, Datum.view, Datum.record, List.map_cons, List.map_nil,
    ofShape, Except.mapError, bind, Except.bind, hparts] at hfields ⊢
  rw [hfields]
  rfl

theorem ofDatum_datum (a : Arrangement) : ofDatum a.datum = .ok a := by
  have hclips : (a.clips.map Clip.datum).mapM clipOfDatum = .ok a.clips :=
    mapM_map_ok fun c _ => clipOfDatum_datum c
  have htracks : (a.tracks.map Track.datum).mapM trackOfDatum = .ok a.tracks :=
    mapM_map_ok fun t _ => trackOfDatum_datum t
  have hhead : readHead (.record [("schema_version", .text schema), ("name", .ofLabel a.name)]) =
      .ok ((), a.name) := by
    unfold readHead
    rw [fieldOr_of_get? (by simp) (readLiteral_text schema),
      fieldOr_of_get? (by simp) (readLabel_ofLabel a.name)]
    rfl
  simp only [Datum.record, List.map_cons, List.map_nil] at hhead
  simp [ofDatum, datum, Datum.record, Datum.fields, Datum.view, partsOr, ofShape, Except.mapError,
    bind, Except.bind, hclips, htracks, hhead, Checked.titled, ofRejection, pure, Except.pure]

theorem datum_inj {a b : Arrangement} (h : a.datum = b.datum) : a = b := by
  have hread := a.ofDatum_datum
  rw [h, b.ofDatum_datum] at hread
  exact (Except.ok.inj hread).symm

end Arrangement

end Arranger
