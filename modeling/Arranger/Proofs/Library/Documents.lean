import Arranger.Proofs.Arrangement.Document
import Arranger.Proofs.Yaml.RoundTrip
import Arranger.Workspace.Library

/-!
# Arrangements in files

The file of an arrangement is read as the arrangement that it was written for, whatever its names
and numbers are.
-/

namespace Arranger

open Yaml (FieldReadsBack IsPrintable ItemReadsBack ScalarReadsBack ValueReadsBack)

/-! ## Fields -/

/-- The names of the fields of documents. -/
def fieldNames : List String := [
    "schema", "name", "clips", "tracks", "kind", "instrument", "notes", "durations", "path",
    "duration"]

theorem isKeyName_fieldNames :
    ∀ name ∈ fieldNames, name.toList ≠ [] ∧ name.toList.all Text.isLowerLetter = true ∧
      name.toList.length ≤ 1024 := by
  decide

theorem implicitTag_fieldNames : ∀ name ∈ fieldNames, Yaml.implicitTag name = .str := by
  decide +kernel

theorem fieldReadsBack
    {indent : Nat} {name : String} {d : Datum} (hname : name ∈ fieldNames)
    (hvalue : ValueReadsBack indent d) :
    FieldReadsBack indent (name, d) where
  isKeyName := by
    obtain ⟨hne, hletters, hshort⟩ := isKeyName_fieldNames name hname
    exact ⟨hne, List.all_eq_true.1 hletters, hshort⟩
  isText := implicitTag_fieldNames name hname
  value := hvalue

theorem valueReadsBack_text {indent : Nat} (hindent : indent ≤ 4) (s : String) :
    ValueReadsBack indent (.text s) := by
  have hwidth : indent + 2 < Yaml.lineWidth := by
    rw [Yaml.lineWidth]
    omega
  exact (Yaml.readsBack_text hwidth s).value

/-! ## Parts of arrangements -/

theorem Group.readsBack (indent : Nat) (g : Group) : ItemReadsBack indent g.datum := by
  cases g with
  | none => exact (Yaml.readsBack_null indent).item
  | some pitches =>
      apply Yaml.itemReadsBack_list
      intro d hd
      obtain ⟨p, -, rfl⟩ := List.mem_map.1 hd
      exact (Yaml.readsBack_pitch _ p).item

theorem InstrumentClip.readsBack (c : InstrumentClip) : ItemReadsBack 0 c.datum := by
  have hnotes : ValueReadsBack 2 (.list (c.notes.map Group.datum)) := by
    apply Yaml.valueReadsBack_list
    intro d hd
    obtain ⟨g, -, rfl⟩ := List.mem_map.1 hd
    exact g.readsBack 2
  have hdurations : ValueReadsBack 2 (.list (c.durations.map .float)) := by
    apply Yaml.valueReadsBack_list
    intro d hd
    obtain ⟨x, -, rfl⟩ := List.mem_map.1 hd
    exact (Yaml.readsBack_float 2 x).item
  apply Yaml.itemReadsBack_record _ (by simp)
  intro f hf
  simp only [List.mem_cons, List.not_mem_nil, or_false] at hf
  rcases hf with rfl | rfl | rfl | rfl | rfl
  · exact fieldReadsBack (by decide) (valueReadsBack_text (by decide) _)
  · exact fieldReadsBack (by decide) (valueReadsBack_text (by decide) _)
  · exact fieldReadsBack (by decide) (valueReadsBack_text (by decide) _)
  · exact fieldReadsBack (by decide) hnotes
  · exact fieldReadsBack (by decide) hdurations

theorem FileClip.readsBack (c : FileClip) : ItemReadsBack 0 c.datum := by
  apply Yaml.itemReadsBack_record _ (by simp)
  intro f hf
  simp only [List.mem_cons, List.not_mem_nil, or_false] at hf
  rcases hf with rfl | rfl | rfl
  all_goals exact fieldReadsBack (by decide) (valueReadsBack_text (by decide) _)

theorem EmptyClip.readsBack (c : EmptyClip) : ItemReadsBack 0 c.datum := by
  apply Yaml.itemReadsBack_record _ (by simp)
  intro f hf
  simp only [List.mem_cons, List.not_mem_nil, or_false] at hf
  rcases hf with rfl | rfl | rfl
  · exact fieldReadsBack (by decide) (valueReadsBack_text (by decide) _)
  · exact fieldReadsBack (by decide) (valueReadsBack_text (by decide) _)
  · exact fieldReadsBack (by decide) (Yaml.readsBack_float 2 _).value

theorem Clip.readsBack (c : Clip) : ItemReadsBack 0 c.datum := by
  cases c with
  | instrument c => exact c.readsBack
  | file c => exact c.readsBack
  | empty c => exact c.readsBack

theorem Track.readsBack (t : Track) : ItemReadsBack 0 t.datum := by
  have hclips : ValueReadsBack 2 (.labels t.clips) := by
    apply Yaml.valueReadsBack_list
    intro d hd
    obtain ⟨l, -, rfl⟩ := List.mem_map.1 hd
    exact (Yaml.readsBack_label (by decide) l).item
  apply Yaml.itemReadsBack_record _ (by simp)
  intro f hf
  simp only [List.mem_cons, List.not_mem_nil, or_false] at hf
  rcases hf with rfl | rfl
  · exact fieldReadsBack (by decide) (valueReadsBack_text (by decide) _)
  · exact fieldReadsBack (by decide) hclips

/-! ## Arrangements -/

/-- The document of an arrangement is printable, and it is read as the document. -/
theorem Arrangement.read_write (a : Arrangement) :
    IsPrintable (Yaml.write a.datum).toList ∧ Yaml.read (Yaml.write a.datum) = .ok a.datum := by
  have hclips : ValueReadsBack 0 (.list (a.clips.map Clip.datum)) := by
    apply Yaml.valueReadsBack_list
    intro d hd
    obtain ⟨c, -, rfl⟩ := List.mem_map.1 hd
    exact c.readsBack
  have htracks : ValueReadsBack 0 (.list (a.tracks.map Track.datum)) := by
    apply Yaml.valueReadsBack_list
    intro d hd
    obtain ⟨t, -, rfl⟩ := List.mem_map.1 hd
    exact t.readsBack
  apply Yaml.read_write_record _ (by simp)
  intro f hf
  simp only [List.mem_cons, List.not_mem_nil, or_false] at hf
  rcases hf with rfl | rfl | rfl | rfl
  · exact fieldReadsBack (by decide) (valueReadsBack_text (by decide) _)
  · exact fieldReadsBack (by decide) (Yaml.readsBack_label (by decide) _).value
  · exact fieldReadsBack (by decide) hclips
  · exact fieldReadsBack (by decide) htracks

namespace Library

theorem withLineFeeds_of_printable {s : List Char} (hs : IsPrintable s) : withLineFeeds s = s := by
  induction s with
  | nil => rfl
  | cons c s ih =>
      have hc : c ≠ '\r' := by
        rintro rfl
        exact absurd (hs '\r' List.mem_cons_self) (by decide)
      have hrest := ih fun d hd => hs d (List.mem_cons_of_mem c hd)
      rw [withLineFeeds, if_neg hc, hrest]
      intro rest heq
      exact absurd heq hc

/-- A printable text is read from a file as it is read by itself. -/
theorem readDocument_of_printable
    {text : String} (hprintable : IsPrintable text.toList) :
    readDocument (.text text) = Yaml.read text := by
  have hdecode : (Content.text text).decode = .ok text := rfl
  simp only [readDocument, hdecode, Except.mapError, bind, Except.bind]
  rw [withLineFeeds_of_printable hprintable, String.ofList_toList]

theorem readDocument_write (a : Arrangement) :
    readDocument (.text (Yaml.write a.datum)) = .ok a.datum := by
  obtain ⟨hprintable, hread⟩ := a.read_write
  rw [readDocument_of_printable hprintable, hread]

theorem fromDocument_write (a : Arrangement) (p : Path) :
    fromDocument p (.text (Yaml.write a.datum)) = .ok a := by
  have hdocument := readDocument_write a
  simp [fromDocument, hdocument, Except.mapError, bind, Except.bind, Arrangement.ofDatum_datum]

end Library

end Arranger
