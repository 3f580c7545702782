import Arranger.Proofs.Arrangement.Document
import Arranger.Proofs.Arrangement.Edits
import Arranger.Proofs.Results
import Arranger.Workspace.Tool

/-!
# Clips from tokens

An instrument clip is made only if there are as many tokens for its groups as for its durations.
Every token stands for one group or one duration, whatever is done to it on the way, so that the
clip has a duration for each group.  A clip or a track has the name that it is given.
-/

namespace Arranger

open Schema (Checked fieldOr readItems)

/-! ## Lengths -/

theorem Datum.length_of_parts
    {d : Datum} {n : Nat} {parts : List Datum} (hlength : d.length = .ok n)
    (hparts : d.parts = .ok parts) : parts.length = n := by
  simpa [length, hparts] using hlength

namespace Schema

variable {α β : Type}

theorem Checked.both_eq_ok_iff {x : Checked α} {y : Checked β} {p : α × β} :
    Checked.both x y = .ok p ↔ x = .ok p.1 ∧ y = .ok p.2 := by
  cases x <;> cases y <;> simp [Checked.both, Prod.ext_iff]

theorem Checked.below_eq_ok_iff {step : Step} {x : Checked α} {a : α} :
    Checked.below step x = .ok a ↔ x = .ok a := by
  cases x <;> simp [Checked.below]

theorem Checked.length_of_itemsFrom
    {read : Datum → Checked α} {items : List Datum} {i : Nat} {xs : List α}
    (h : Checked.itemsFrom read i items = .ok xs) : xs.length = items.length := by
  induction items generalizing i xs with
  | nil =>
      rw [← Except.ok.inj h]
      rfl
  | cons item rest ih =>
      obtain ⟨p, hp, rfl⟩ := map_eq_ok_iff.1 h
      have hrest := ih (Checked.both_eq_ok_iff.1 hp).2
      simp [hrest]

theorem fieldOr_eq_ok_iff
    {name : String} {fallback a : α} {read : Datum → Checked α} {d value : Datum}
    (hget : d.get? name = some value) :
    fieldOr name fallback read d = .ok a ↔ read value = .ok a := by
  simp only [fieldOr, hget, Checked.below_eq_ok_iff]

/-- A list in a field has as many items as the value of the field. -/
theorem length_of_fieldOr
    {name : String} {fallback xs : List α} {read : Datum → Checked α}
    {d : Datum} {items : List Datum} (hget : d.get? name = some (.list items))
    (h : fieldOr name fallback (readItems read) d = .ok xs) : xs.length = items.length :=
  Checked.length_of_itemsFrom ((fieldOr_eq_ok_iff hget).1 h)

end Schema

/-! ## Names -/

open Schema

theorem Schema.field_eq_ok_iff
    {α : Type} {name : String} {a : α} {read : Datum → Checked α} {d value : Datum}
    (hget : d.get? name = some value) :
    field name read d = .ok a ↔ read value = .ok a := by
  simp only [field, hget, Checked.below_eq_ok_iff]

theorem Schema.eq_of_readName {text : String} {name : Name} (h : readName (.text text) = .ok name) :
    name.val = text := by
  obtain ⟨s, hs, hname⟩ := bind_eq_ok_iff.1 h
  obtain rfl : text = s := Except.ok.inj hs
  split at hname
  · cases hname
  · rw [← Except.ok.inj hname]

/-- A field that is read as a name is the text that it holds. -/
theorem Schema.eq_of_field_name
    {d : Datum} {key text : String} {name : Name} (hget : d.get? key = some (.text text))
    (h : field key readName d = .ok name) : name.val = text :=
  eq_of_readName ((field_eq_ok_iff hget).1 h)

variable {d : Datum} {text : String}

theorem InstrumentClip.name_of_readFields
    {c : InstrumentClip} (hname : d.get? "name" = some (.text text))
    (h : readFields d = .ok c) : c.name.val = text := by
  obtain ⟨⟨kind, name, instrument, groups, values⟩, hfields, rfl⟩ := map_eq_ok_iff.1 h
  simp only [Checked.both_eq_ok_iff] at hfields
  exact eq_of_field_name hname hfields.2.1

theorem FileClip.name_of_readFields
    {c : FileClip} (hname : d.get? "name" = some (.text text))
    (h : readFields d = .ok c) : c.name.val = text := by
  obtain ⟨⟨kind, name, path⟩, hfields, rfl⟩ := map_eq_ok_iff.1 h
  simp only [Checked.both_eq_ok_iff] at hfields
  exact eq_of_field_name hname hfields.2.1

theorem EmptyClip.name_of_readFields
    {c : EmptyClip} (hname : d.get? "name" = some (.text text))
    (h : readFields d = .ok c) : c.name.val = text := by
  obtain ⟨⟨kind, name, duration⟩, hfields, rfl⟩ := map_eq_ok_iff.1 h
  simp only [Checked.both_eq_ok_iff] at hfields
  exact eq_of_field_name hname hfields.2.1

theorem Track.name_of_readFields
    {t : Track} (hname : d.get? "name" = some (.text text))
    (h : readFields d = .ok t) : t.name.val = text := by
  obtain ⟨⟨name, clips⟩, hfields, rfl⟩ := map_eq_ok_iff.1 h
  exact eq_of_field_name hname (Checked.both_eq_ok_iff.1 hfields).1

theorem Schema.Checked.titled_eq_ok_iff {α : Type} {title : String} {x : Checked α} {a : α} :
    x.titled title = .ok a ↔ x = .ok a := by
  cases x <;> simp [Checked.titled]

theorem InstrumentClip.lengths_of_readFields
    {notes durations : List Datum} {c : InstrumentClip}
    (hnotes : d.get? "notes" = some (.list notes))
    (hdurations : d.get? "durations" = some (.list durations))
    (h : readFields d = .ok c) :
    c.notes.length = notes.length ∧ c.durations.length = durations.length := by
  obtain ⟨⟨kind, name, instrument, groups, values⟩, hfields, rfl⟩ := map_eq_ok_iff.1 h
  simp only [Checked.both_eq_ok_iff] at hfields
  obtain ⟨-, -, -, hgroups, hvalues⟩ := hfields
  exact ⟨length_of_fieldOr hnotes hgroups, length_of_fieldOr hdurations hvalues⟩

theorem Notation.lengths_of_instrumentClip
    {name instrument : Datum} {notes durations : List Datum} {c : InstrumentClip}
    (h : instrumentClip name instrument (.list notes) (.list durations) = .ok c) :
    c.notes.length = notes.length ∧ c.durations.length = durations.length := by
  simp only [instrumentClip, bind_eq_ok_iff, mapError_eq_ok_iff, Datum.parts_list, Except.ok.injEq,
    exists_eq_left', Checked.titled_eq_ok_iff] at h
  obtain ⟨groups, hgroups, hread⟩ := h
  rw [← length_eq_of_mapM hgroups]
  exact InstrumentClip.lengths_of_readFields (by simp) (by simp) hread

theorem Notation.name_of_instrumentClip
    {instrument notes durations : Datum} {c : InstrumentClip}
    (h : instrumentClip (.text text) instrument notes durations = .ok c) : c.name.val = text := by
  simp only [instrumentClip, bind_eq_ok_iff, mapError_eq_ok_iff, Checked.titled_eq_ok_iff] at h
  obtain ⟨_, -, _, -, _, -, hread⟩ := h
  exact InstrumentClip.name_of_readFields (by simp) hread

theorem Notation.name_of_emptyClip
    {duration : Datum} {c : EmptyClip} (h : emptyClip (.text text) duration = .ok c) :
    c.name.val = text := by
  simp only [emptyClip, mapError_eq_ok_iff, Checked.titled_eq_ok_iff] at h
  exact EmptyClip.name_of_readFields (by simp) h

theorem Notation.name_of_fileClip
    {path : Datum} {c : FileClip} (h : fileClip (.text text) path = .ok c) : c.name.val = text := by
  simp only [fileClip, mapError_eq_ok_iff, Checked.titled_eq_ok_iff] at h
  exact FileClip.name_of_readFields (by simp) h

theorem Notation.name_of_track
    {clips : List Datum} {t : Track} (h : track (.text text) clips = .ok t) : t.name.val = text := by
  simp only [track, mapError_eq_ok_iff, Checked.titled_eq_ok_iff] at h
  exact Track.name_of_readFields (by simp) h

/-! ## Tokens -/

namespace Tool

theorem length_of_readDurations
    {tokens values : List Datum} (h : (readDurations tokens).result = .ok values) :
    values.length = tokens.length := by
  induction tokens generalizing values with
  | nil => rw [← Except.ok.inj h]
  | cons token rest ih =>
      obtain ⟨x, -, hmore⟩ := Outcome.result_andThen_eq_ok_iff.1 h
      obtain ⟨more, hrest, hvalues⟩ := Outcome.result_andThen_eq_ok_iff.1 hmore
      rw [← Except.ok.inj hvalues, List.length_cons, List.length_cons, ih hrest]

theorem name_of_instrumentClip
    {instrument notes durations : Datum} {c : InstrumentClip}
    (h : (instrumentClip (.text text) instrument notes durations).result = .ok c) :
    c.name.val = text := by
  obtain ⟨noteCount, -, h⟩ := Outcome.result_andThen_eq_ok_iff.1 h
  obtain ⟨durationCount, -, h⟩ := Outcome.result_andThen_eq_ok_iff.1 h
  split at h
  · simp [Outcome.fail] at h
  · obtain ⟨groups, -, h⟩ := Outcome.result_andThen_eq_ok_iff.1 h
    obtain ⟨tokens, -, h⟩ := Outcome.result_andThen_eq_ok_iff.1 h
    obtain ⟨values, -, hclip⟩ := Outcome.result_andThen_eq_ok_iff.1 h
    exact Notation.name_of_instrumentClip hclip

/-- An instrument clip of tokens has a duration for each group. -/
theorem hasLengths_of_instrumentClip
    {name instrument notes durations : Datum} {c : InstrumentClip}
    (h : (instrumentClip name instrument notes durations).result = .ok c) :
    (Clip.instrument c).HasLengths := by
  obtain ⟨noteCount, hnoteCount, h⟩ := Outcome.result_andThen_eq_ok_iff.1 h
  obtain ⟨durationCount, hdurationCount, h⟩ := Outcome.result_andThen_eq_ok_iff.1 h
  split at h
  · simp [Outcome.fail] at h
  · next hcounts =>
    obtain ⟨groups, hgroups, h⟩ := Outcome.result_andThen_eq_ok_iff.1 h
    obtain ⟨tokens, htokens, h⟩ := Outcome.result_andThen_eq_ok_iff.1 h
    obtain ⟨values, hvalues, hclip⟩ := Outcome.result_andThen_eq_ok_iff.1 h
    obtain ⟨events, hevents, hread⟩ := bind_eq_ok_iff.1 hgroups
    obtain ⟨hclipNotes, hclipDurations⟩ := Notation.lengths_of_instrumentClip hclip
    have hnotes : groups.length = noteCount := by
      rw [length_eq_of_mapM hread]
      exact Datum.length_of_parts (mapError_eq_ok_iff.1 hnoteCount) (mapError_eq_ok_iff.1 hevents)
    have hdurations : values.length = durationCount := by
      rw [length_of_readDurations hvalues]
      exact Datum.length_of_parts (mapError_eq_ok_iff.1 hdurationCount)
        (mapError_eq_ok_iff.1 htokens)
    have hequal : noteCount = durationCount := by simpa using hcounts
    rintro d ⟨⟩
    rw [hclipNotes, hclipDurations, hnotes, hdurations, hequal]

end Tool

end Arranger
