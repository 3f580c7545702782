import Arranger.Proofs.Arrangement.Document
import Arranger.Proofs.Results

/-!
# Normal documents

A document that is read may leave fields out, have fields of its own, and give values that are
coerced.  Its normal form is the document of the arrangement that it is read as.  The documents of
arrangements are just those that are their own normal form.
-/

namespace Arranger.Arrangement

variable {d e : Datum} {a : Arrangement} {fields fields' : List (Datum × Datum)}

/-- The document of the arrangement that a document is read as. -/
def normalForm (d : Datum) : Except Fault Datum := (ofDatum d).map datum

theorem normalForm_eq_ok_iff : normalForm d = .ok e ↔ ∃ a, ofDatum d = .ok a ∧ a.datum = e :=
  map_eq_ok_iff

theorem normalForm_datum (a : Arrangement) : normalForm a.datum = .ok a.datum :=
  normalForm_eq_ok_iff.2 ⟨a, ofDatum_datum a, rfl⟩

theorem normalForm_eq_self_iff : normalForm d = .ok d ↔ ∃ a : Arrangement, a.datum = d := by
  constructor
  · intro hself
    obtain ⟨a, -, ha⟩ := normalForm_eq_ok_iff.1 hself
    exact ⟨a, ha⟩
  · rintro ⟨a, rfl⟩
    exact normalForm_datum a

/-! ## Fields of a document -/

/-- The fields that are read, each with the value that counts if it is left out. -/
def fieldDefaults : List (String × Datum) :=
  [("clips", .list []), ("tracks", .list []), ("schema", .text schema),
    ("name", .text defaultName)]

def fieldValue (fields : List (Datum × Datum)) (field : String × Datum) : Datum :=
  (Datum.lookup fields field.1).getD field.2

/-- A field that is left out counts as its default, and no other field counts. -/
theorem ofDatum_congr
    (h : ∀ field ∈ fieldDefaults, fieldValue fields field = fieldValue fields' field) :
    ofDatum (.map fields) = ofDatum (.map fields') := by
  simp only [fieldDefaults, List.forall_mem_cons, fieldValue] at h
  obtain ⟨hclips, htracks, hschema, hname, -⟩ := h
  have hparts : partsOr fields "clips" = partsOr fields' "clips" ∧
      partsOr fields "tracks" = partsOr fields' "tracks" := by
    unfold partsOr
    rw [hclips, htracks]
    exact ⟨rfl, rfl⟩
  have hshape : ∀ given, ofShape (Datum.map given).fields = .ok given := fun _ => rfl
  unfold ofDatum
  rw [hshape, hshape]
  simp only [bind, Except.bind, hparts.1, hparts.2, hschema, hname]

/-- A map of the fields that count, with nothing left out. -/
def completed (fields : List (Datum × Datum)) : List (Datum × Datum) :=
  fieldDefaults.map fun field => (.text field.1, fieldValue fields field)

theorem ofDatum_completed (fields : List (Datum × Datum)) :
    ofDatum (.map (completed fields)) = ofDatum (.map fields) := by
  apply ofDatum_congr
  simp [completed, fieldDefaults, fieldValue, Datum.lookup_text_cons]

/-! ## Reading twice -/

/-- An arrangement is read back from its document.  What is made of a document that is read is
itself read as the same arrangement, and nothing is made of it again. -/
theorem reads_back_and_normalizes_once :
    (∀ a : Arrangement, ofDatum a.datum = .ok a) ∧
      ∀ d e, normalForm d = .ok e →
        (∃ a, ofDatum d = .ok a ∧ ofDatum e = .ok a) ∧ normalForm e = .ok e := by
  refine ⟨ofDatum_datum, ?_⟩
  intro d e hnormal
  obtain ⟨a, hread, rfl⟩ := normalForm_eq_ok_iff.1 hnormal
  exact ⟨⟨a, hread, ofDatum_datum a⟩, normalForm_datum a⟩

/-- A document without a schema and a name, with a field of its own, a pitch with a fraction, and a
duration that is a truth value. -/
def looseDocument : Datum :=
  .map [(.text "tempo", .int 90), (.text "clips", .list [.map [(.text "kind", .text "instrument"),
    (.text "name", .text "x"), (.text "instrument", .text "sine"),
    (.text "notes", .list [.list [.float 60.0], .null]),
    (.text "durations", .list [.bool true, .int 2])]]),
    (.text "tracks", .list [.map [(.text "name", .text "t")]])]

theorem normalizes_once_looseDocument :
    ∃ e, normalForm looseDocument = .ok e ∧ normalForm e = .ok e := by
  have hread : (normalForm looseDocument).toOption.isSome = true := by decide +kernel
  cases hnormal : normalForm looseDocument with
  | ok e => exact ⟨e, rfl, (reads_back_and_normalizes_once.2 _ e hnormal).2⟩
  | error fault => simp [hnormal, Except.toOption] at hread

end Arranger.Arrangement
