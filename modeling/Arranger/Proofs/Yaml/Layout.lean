import Arranger.Yaml.Value
import Mathlib.Data.List.Forall2

/-!
# Cells of values

A node without anchors denotes a value if its cells, wherever they are laid out, mean the value and
its parts.  What a cell means is told from the values of the cells in front of it.
-/

namespace Arranger.Yaml

open Building (reader? isCollection)

/-- A text is read at scalars only. -/
theorem not_isCollection_of_reader? {c : Cell} {read : Label → Except Error Datum}
    (h : reader? c = some read) : c.tag.isCollection = false := by
  unfold reader? at h
  split at h
  case h_8 => cases h
  all_goals
    next htag =>
    rw [htag]
    rfl

/-- What a cell means, given the values of the cells in front of it. -/
inductive Cell.Means (values : List Datum) : Cell → Datum → Prop
  | scalar {tag : Tag} {text : ScalarText} {place : Mark} {read : Label → Except Error Datum}
      {d : Datum} (hreader : reader? (.scalar tag text place) = some read)
      (hread : read text.value = .ok d) (hvalue : isCollection d = false) :
      Means values (.scalar tag text place) d
  | sequence {items : List Nat} {place : Mark} {ds : List Datum}
      (hitems : List.Forall₂ (fun i d => values[i]? = some d) items ds) :
      Means values (.sequence .seq items place) (.list ds)
  | mapping {entries : List (Nat × Nat)} {place : Mark} {fields : List (String × Datum)}
      (hentries : List.Forall₂ (fun (e : Nat × Nat) (f : String × Datum) =>
        values[e.1]? = some (.text f.1) ∧ values[e.2]? = some f.2) entries fields)
      (hdistinct : (fields.map (·.1)).Nodup) :
      Means values (.mapping .map entries place) (.record fields)

/-- The values that cells mean, one after another. -/
inductive AreRead : List Cell → List Datum → Prop
  | nil : AreRead [] []
  | snoc {cells : List Cell} {values : List Datum} {c : Cell} {d : Datum}
      (h : AreRead cells values) (hmeans : c.Means values d) : AreRead (cells ++ [c]) (values ++ [d])

section Cells

variable {cells : List Cell} {values more : List Datum} {c : Cell} {d : Datum} {p : Nat}

theorem AreRead.length_eq (h : AreRead cells values) : cells.length = values.length := by
  induction h with
  | nil => rfl
  | snoc _ _ ih => simp [ih]

theorem getElem?_append_of_some (h : values[p]? = some d) (more : List Datum) :
    (values ++ more)[p]? = some d := by
  obtain ⟨hp, -⟩ := List.getElem?_eq_some_iff.1 h
  rw [List.getElem?_append_left hp, h]

theorem lt_of_getElem?_take {i : Nat} (h : (values.take p)[i]? = some d) :
    i < p ∧ values[i]? = some d := by
  rw [List.getElem?_take] at h
  split at h
  · next hi => exact ⟨hi, h⟩
  · exact absurd h (by simp)

/-- The value of a cell is what it means, and its parts are in front of it. -/
theorem AreRead.means (h : AreRead cells values) (hcell : cells[p]? = some c) :
    ∃ d, values[p]? = some d ∧ c.Means (values.take p) d := by
  induction h with
  | nil => simp at hcell
  | @snoc cells values last e h hmeans ih =>
      have hlength := h.length_eq
      rcases Nat.lt_trichotomy p cells.length with hp | hp | hp
      · rw [List.getElem?_append_left hp] at hcell
        obtain ⟨d, hd, hmeans⟩ := ih hcell
        have htake : (values ++ [e]).take p = values.take p :=
          List.take_append_of_le_length (by omega)
        exact ⟨d, getElem?_append_of_some hd _, by rwa [htake]⟩
      · subst hp
        obtain rfl : last = c := by simpa using hcell
        exact ⟨e, by simp [hlength], by simpa [hlength] using hmeans⟩
      · rw [List.getElem?_eq_none (by simp; omega)] at hcell
        exact absurd hcell (by simp)

theorem Cell.Means.isCollection (h : c.Means values d) : isCollection d = false := by
  cases h with
  | scalar _ _ hvalue => exact hvalue
  | sequence _ => rfl
  | mapping _ _ => rfl

/-- A value that is no collection is read from a text. -/
theorem Cell.Means.exists_scalar (h : c.Means values d) (htag : c.tag.isCollection = false) :
    ∃ tag text place read, c = .scalar tag text place ∧
      reader? (.scalar tag text place) = some read ∧ read text.value = .ok d := by
  cases h with
  | scalar hreader hread _ => exact ⟨_, _, _, _, rfl, hreader, hread⟩
  | sequence _ => exact absurd (show Tag.seq.isCollection = false from htag) (by decide)
  | mapping _ _ => exact absurd (show Tag.map.isCollection = false from htag) (by decide)

/-- A text is no collection. -/
theorem Cell.Means.tag_of_text {name : String} (h : c.Means values (.text name)) :
    c.tag.isCollection = false := by
  obtain ⟨e, he⟩ : ∃ e, e = Datum.text name := ⟨_, rfl⟩
  rw [← he] at h
  cases h with
  | scalar hreader _ _ => exact not_isCollection_of_reader? hreader
  | sequence _ => cases he
  | mapping _ _ => cases he

/-- Nothing is merged and nothing stands for a default value. -/
theorem Cell.Means.tag_ne (h : c.Means values d) : c.tag ≠ .merge ∧ c.tag ≠ .value := by
  cases h with
  | @scalar tag text place read _ hreader _ _ =>
      constructor <;> (rintro htag; obtain rfl : tag = _ := htag; simp [reader?, Cell.tag] at hreader)
  | sequence _ => exact ⟨by simp [Cell.tag], by simp [Cell.tag]⟩
  | mapping _ _ => exact ⟨by simp [Cell.tag], by simp [Cell.tag]⟩

end Cells

/-! ## Nodes -/

/-- A node that denotes a value: its cells mean it behind all other cells. -/
def Node.Denotes (n : Node) (d : Datum) : Prop :=
  ∀ cells values, AreRead cells values →
    ∃ more, AreRead (n.lay cells).2 (values ++ more) ∧ (values ++ more)[(n.lay cells).1]? = some d

section Nodes

variable {cells : List Cell} {values : List Datum}

theorem AreRead.exists_snoc (h : AreRead cells values) {c : Cell} {d : Datum}
    (hmeans : c.Means values d) :
    AreRead (cells ++ [c]) (values ++ [d]) ∧ (values ++ [d])[cells.length]? = some d :=
  ⟨h.snoc hmeans, by simp [h.length_eq]⟩

theorem denotes_scalar
    {tag : Tag} {text : ScalarText} {read : Label → Except Error Datum} {d : Datum} (place : Mark)
    (hreader : reader? (.scalar tag text place) = some read) (hread : read text.value = .ok d)
    (hvalue : isCollection d = false) : (Node.scalar tag text place).Denotes d := by
  intro cells values h
  exact ⟨[d], h.exists_snoc (.scalar hreader hread hvalue)⟩

theorem denotes_items
    {items : List Node} {ds : List Datum} (hitems : List.Forall₂ Node.Denotes items ds)
    (h : AreRead cells values) :
    ∃ more, AreRead (layItems cells items).2 (values ++ more) ∧
      List.Forall₂ (fun i d => (values ++ more)[i]? = some d) (layItems cells items).1 ds := by
  induction hitems generalizing cells values with
  | nil => exact ⟨[], by simpa [layItems] using h, by simp [layItems]⟩
  | @cons item d items ds hitem _ ih =>
      obtain ⟨added, hadded, hvalue⟩ := hitem _ _ h
      obtain ⟨more, hmore, hrest⟩ := ih hadded
      refine ⟨added ++ more, ?_, ?_⟩
      · simpa [layItems] using hmore
      · rw [← List.append_assoc]
        exact .cons (getElem?_append_of_some hvalue more) hrest

theorem denotes_sequence
    {items : List Node} {ds : List Datum} (place : Mark)
    (hitems : List.Forall₂ Node.Denotes items ds) :
    (Node.sequence .seq items place).Denotes (.list ds) := by
  intro cells values h
  obtain ⟨more, hmore, hparts⟩ := denotes_items hitems h
  refine ⟨more ++ [.list ds], ?_⟩
  rw [← List.append_assoc]
  exact hmore.exists_snoc (.sequence hparts)

/-- A node of a key that is a text. -/
def Node.IsKey (n : Node) (name : String) : Prop :=
  ∃ isPlain place, n = .scalar .str ⟨.text name, isPlain⟩ place

theorem Node.IsKey.denotes {n : Node} {name : String} (h : n.IsKey name) :
    n.Denotes (.text name) := by
  obtain ⟨isPlain, place, rfl⟩ := h
  exact denotes_scalar place rfl rfl rfl

theorem denotes_entries
    {entries : List (Node × Node)} {fields : List (String × Datum)}
    (hentries : List.Forall₂ (fun entry field => entry.1.IsKey field.1 ∧ entry.2.Denotes field.2)
      entries fields) (h : AreRead cells values) :
    ∃ more, AreRead (layEntries cells entries).2 (values ++ more) ∧
      List.Forall₂ (fun (e : Nat × Nat) (f : String × Datum) =>
        (values ++ more)[e.1]? = some (.text f.1) ∧ (values ++ more)[e.2]? = some f.2)
        (layEntries cells entries).1 fields := by
  induction hentries generalizing cells values with
  | nil => exact ⟨[], by simpa [layEntries] using h, by simp [layEntries]⟩
  | @cons entry field entries fields hentry _ ih =>
      obtain ⟨key, value⟩ := entry
      obtain ⟨name, d⟩ := field
      obtain ⟨hkey, hvalue⟩ := hentry
      obtain ⟨first, hfirst, hname⟩ := hkey.denotes _ _ h
      obtain ⟨second, hsecond, hd⟩ := hvalue _ _ hfirst
      obtain ⟨more, hmore, hrest⟩ := ih hsecond
      refine ⟨first ++ second ++ more, ?_, ?_⟩
      · simpa [layEntries] using hmore
      · rw [← List.append_assoc, ← List.append_assoc]
        exact .cons ⟨getElem?_append_of_some (getElem?_append_of_some hname second) more,
          getElem?_append_of_some hd more⟩ hrest

theorem denotes_mapping
    {entries : List (Node × Node)} {fields : List (String × Datum)} (place : Mark)
    (hentries : List.Forall₂ (fun entry field => entry.1.IsKey field.1 ∧ entry.2.Denotes field.2)
      entries fields) (hdistinct : (fields.map (·.1)).Nodup) :
    (Node.mapping .map entries place).Denotes (.record fields) := by
  intro cells values h
  obtain ⟨more, hmore, hparts⟩ := denotes_entries hentries h
  refine ⟨more ++ [.record fields], ?_⟩
  rw [← List.append_assoc]
  exact hmore.exists_snoc (.mapping hparts hdistinct)

end Nodes

end Arranger.Yaml
