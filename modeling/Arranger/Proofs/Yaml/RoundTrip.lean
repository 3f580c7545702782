import Arranger.Proofs.Yaml.Building
import Arranger.Proofs.Yaml.Numbers
import Arranger.Proofs.Yaml.Printable

/-!
# Documents read back

A value reads back if the tokens of what is written for it denote it, wherever it stands.  Lists
and maps read back if their parts do.
-/

namespace Arranger.Yaml


/-! ## Positions of a value -/

/-- A value on a line reads back. -/
def ScalarReadsBack (indent : Nat) (d : Datum) : Prop :=
  ∃ contents, WritesScalar indent d contents ∧ (∀ allows, ReadsNode allows contents d) ∧
    ∀ column, IsPrintable (writeScalar true column (indent + 2) d)

/-- A value reads back as an item of a list that is indented by `indent`. -/
def ItemReadsBack (indent : Nat) (d : Datum) : Prop :=
  ∃ contents, LexesItem indent d contents ∧ ReadsNode false contents d ∧
    IsPrintable (writeItem indent d)

/-- A value reads back behind a key of a mapping that is indented by `indent`. -/
def ValueReadsBack (indent : Nat) (d : Datum) : Prop :=
  ∃ contents, LexesValue indent d contents ∧ ReadsNode true contents d ∧
    ∀ column, IsPrintable (writeEntryValue column indent d)

theorem ScalarReadsBack.item {indent : Nat} {d : Datum} (h : ScalarReadsBack indent d) :
    ItemReadsBack indent d := by
  obtain ⟨contents, hwrites, hreads, hprintable⟩ := h
  refine ⟨contents, hwrites.lexesItem, hreads false, ?_⟩
  rw [writeItem_of_isFlat hwrites.isFlat]
  exact (hprintable _).cons (by decide)

theorem ScalarReadsBack.value {indent : Nat} {d : Datum} (h : ScalarReadsBack indent d) :
    ValueReadsBack indent d := by
  obtain ⟨contents, hwrites, hreads, hprintable⟩ := h
  refine ⟨contents, hwrites.lexesValue, hreads true, ?_⟩
  intro column
  rw [writeEntryValue_of_isFlat hwrites.isFlat]
  exact (hprintable _).cons (by decide)

/-! ## Scalars -/

theorem IsWordFor.readsBack
    {text : String} {d : Datum} (h : IsWordFor text d) (hflat : IsFlat d)
    (hwritten : ∀ column indent, writeScalar true column indent d = text.toList) (indent : Nat) :
    ScalarReadsBack indent d := by
  have hwrites := writesScalar_word hflat hwritten h.isPlainWord h.beginsPlainly indent
  rw [String.ofList_toList] at hwrites
  refine ⟨_, hwrites, fun allows => readsNode_scalar h.denotes, ?_⟩
  intro column
  rw [hwritten]
  exact isPrintable_of_isPlainAscii h.isPlainWord.ascii

theorem readsBack_float (indent : Nat) (x : Float) : ScalarReadsBack indent (.float x) :=
  (isWordFor_float x).readsBack trivial (fun _ _ => rfl) indent

theorem readsBack_pitch (indent : Nat) (p : Pitch) : ScalarReadsBack indent (.int p.val) :=
  (isWordFor_pitch p).readsBack trivial (fun _ _ => rfl) indent

theorem readsBack_null (indent : Nat) : ScalarReadsBack indent .null :=
  isWordFor_null.readsBack trivial (fun _ _ => rfl) indent

theorem readsBack_text {indent : Nat} (hindent : indent + 2 < lineWidth) (s : String) :
    ScalarReadsBack indent (.text s) := by
  refine ⟨_, writesScalar_text s hindent, ?_, fun column => isPrintable_writeText _ _ _ _⟩
  intro allows
  apply readsNode_scalar
  intro place
  have htag : Composing.scalarTag ⟨none, none, none⟩
      ⟨.text s, decide (styleOf s.toList = .plain)⟩ = .str := by
    by_cases hplain : styleOf s.toList = .plain
    · obtain ⟨c, rest, hcons, htext⟩ := isPlainText_of_styleOf hplain
      have hstr := htext.isText
      rw [← hcons, String.ofList_toList] at hstr
      simp [Composing.scalarTag, hplain, Label.text?, hstr]
    · simp [Composing.scalarTag, Composing.Properties.tagOr, hplain]
  rw [htag]
  exact denotes_scalar place rfl rfl rfl

theorem readsBack_broken {indent : Nat} (hindent : indent + 2 < lineWidth) (t : BrokenText) :
    ScalarReadsBack indent (.brokenText t) :=
  ⟨_, writesScalar_broken t hindent,
    fun _ => readsNode_scalar fun place => denotes_scalar place rfl rfl rfl,
    fun _ => isPrintable_writeDouble _ _ _ _⟩

theorem readsBack_label {indent : Nat} (hindent : indent + 2 < lineWidth) (l : Label) :
    ScalarReadsBack indent (.ofLabel l) := by
  cases l with
  | text s => exact readsBack_text hindent s
  | broken t => exact readsBack_broken hindent t

theorem readsBack_emptyList (indent : Nat) : ScalarReadsBack indent (.list []) := by
  refine ⟨_, writesScalar_emptyList indent, fun allows => readsNode_empty, ?_⟩
  intro column
  exact (isPrintable_nil.cons (by decide)).cons (by decide)

/-! ## Lists -/

theorem isPrintable_writeItems
    {indent : Nat} {ds : List Datum} (h : ∀ d ∈ ds, IsPrintable (writeItem indent d)) :
    IsPrintable (writeItems indent ds) := by
  induction ds with
  | nil => exact isPrintable_nil
  | cons d ds ih =>
      have hd := (h d List.mem_cons_self).cons (c := '-') (by decide)
      have hrest := ih fun e he => h e (List.mem_cons_of_mem d he)
      cases ds with
      | nil => rwa [writeItems]
      | cons second more =>
          rw [writeItems]
          · have hline := (isPrintable_spaces indent).cons (c := '\n') (by decide)
            simpa using (hd.append hline).append hrest
          · simp

section List

variable {indent : Nat} {d : Datum} {ds : List Datum}

theorem exists_items (h : ∀ e ∈ d :: ds, ItemReadsBack indent e) :
    ∃ items, LexesBlock indent (writeItems indent (d :: ds)) .blockSequenceStart
        (itemContents items) ∧ List.Forall₂ (ReadsNode false) items (d :: ds) ∧ items ≠ [] ∧
      IsPrintable (writeItems indent (d :: ds)) := by
  obtain ⟨items, hitems⟩ := exists_forall₂_iff.2 h
  refine ⟨items, lexesBlock_items (hitems.imp fun _ _ hitem => hitem.1), ?_, ?_, ?_⟩
  · exact (hitems.imp fun _ _ hitem => hitem.2.1).flip
  · rintro rfl
    cases hitems
  · apply isPrintable_writeItems
    intro e he
    obtain ⟨contents, -, -, hprintable⟩ := h e he
    exact hprintable

theorem itemReadsBack_list (h : ∀ e ∈ ds, ItemReadsBack (indent + 2) e) :
    ItemReadsBack indent (.list ds) := by
  cases ds with
  | nil => exact (readsBack_emptyList indent).item
  | cons d ds =>
      obtain ⟨items, hlexes, hreads, -, hprintable⟩ := exists_items h
      refine ⟨_, lexesItem_list hlexes, readsNode_sequence hreads, ?_⟩
      rw [writeItem]
      exact hprintable.cons (by decide)

theorem valueReadsBack_list (h : ∀ e ∈ ds, ItemReadsBack indent e) :
    ValueReadsBack indent (.list ds) := by
  cases ds with
  | nil => exact (readsBack_emptyList indent).value
  | cons d ds =>
      obtain ⟨items, hlexes, hreads, hne, hprintable⟩ := exists_items h
      refine ⟨_, lexesValue_list hlexes, readsNode_indentless hreads hne, ?_⟩
      intro column
      rw [writeEntryValue]
      have hline := (isPrintable_spaces indent).cons (c := '\n') (by decide)
      exact hline.append hprintable

end List

/-! ## Records -/

/-- An entry of a mapping reads back. -/
structure FieldReadsBack (indent : Nat) (field : String × Datum) : Prop where
  isKeyName : Lexer.IsKeyName field.1.toList
  isText : implicitTag field.1 = .str
  value : ValueReadsBack indent field.2

section Record

variable {indent : Nat} {field : String × Datum} {fields : List (String × Datum)}

theorem isPrintable_writtenEntry (h : FieldReadsBack indent field) :
    IsPrintable (writtenEntry indent field) := by
  obtain ⟨contents, -, -, hprintable⟩ := h.value
  have hname := isPrintable_of_isPlainAscii h.isKeyName.isPlainWord.ascii
  exact hname.append ((hprintable _).cons (by decide))

theorem exists_entries (h : ∀ f ∈ field :: fields, FieldReadsBack indent f) :
    ∃ entries, List.Forall₂ (LexesEntry indent) (field :: fields) entries ∧
      List.Forall₂ ReadsEntry entries (field :: fields) ∧
      IsPrintable (writeEntries indent (textEntries (field :: fields))) := by
  have hentry : ∀ f ∈ field :: fields, ∃ entry : String × List Token.Content,
      LexesEntry indent f entry ∧ ReadsEntry entry f := by
    intro f hf
    obtain ⟨contents, hlexes, hreads, -⟩ := (h f hf).value
    exact ⟨(f.1, contents), ⟨rfl, (h f hf).isKeyName, (h f hf).isText, hlexes⟩,
      ⟨rfl, (h f hf).isText, hreads⟩⟩
  obtain ⟨entries, hentries⟩ := exists_forall₂_iff.2 hentry
  refine ⟨entries, hentries.imp fun _ _ he => he.1, (hentries.imp fun _ _ he => he.2).flip, ?_⟩
  clear hentries hentry
  induction fields generalizing field with
  | nil =>
      have hfield := h field List.mem_cons_self
      obtain ⟨contents, hlexes, -, -⟩ := hfield.value
      have hentry : LexesEntry indent field (field.1, contents) :=
        ⟨rfl, hfield.isKeyName, hfield.isText, hlexes⟩
      rw [writeEntries_single hentry]
      exact isPrintable_writtenEntry hfield
  | cons second rest ih =>
      have hfield := h field List.mem_cons_self
      obtain ⟨contents, hlexes, -, -⟩ := hfield.value
      have hentry : LexesEntry indent field (field.1, contents) :=
        ⟨rfl, hfield.isKeyName, hfield.isText, hlexes⟩
      rw [writeEntries_cons hentry]
      have hrest := ih fun f hf => h f (List.mem_cons_of_mem field hf)
      have hline := ((isPrintable_spaces indent).append hrest).cons (c := '\n') (by decide)
      exact (isPrintable_writtenEntry hfield).append hline

theorem itemReadsBack_record
    (h : ∀ f ∈ field :: fields, FieldReadsBack (indent + 2) f)
    (hdistinct : ((field :: fields).map (·.1)).Nodup) :
    ItemReadsBack indent (.record (field :: fields)) := by
  obtain ⟨entries, hlexes, hreads, hprintable⟩ := exists_entries h
  refine ⟨_, lexesItem_map hlexes, readsNode_mapping hreads hdistinct, ?_⟩
  rw [Datum.record, List.map_cons, writeItem]
  exact hprintable.cons (by decide)

end Record

/-! ## Documents -/

theorem isDocumentChar_of_printable {c : Char} (h : needsEscape c = false) :
    isDocumentChar c = true := by
  simp only [needsEscape, Bool.and_eq_false_iff, bne_eq_false_iff_eq, Bool.not_eq_false',
    isPlainAscii, Bool.and_eq_true, decide_eq_true_eq, Char.le_def, UInt32.le_iff_toNat_le] at h
  rcases h with rfl | ⟨hlow, hhigh⟩
  · decide
  · have hspace : ' '.val.toNat = 32 := rfl
    have htilde : '~'.val.toNat = 126 := rfl
    have hnat : c.toNat = c.val.toNat := rfl
    simp only [isDocumentChar, Bool.or_eq_true, Bool.and_eq_true, decide_eq_true_eq]
    omega

theorem tokens_of_printable {s : List Char} (hs : IsPrintable s) :
    tokens s = Lexer.run (s.length + 2) (.start s) := by
  have hnone : s.findIdx? (!isDocumentChar ·) = none := by
    rw [List.findIdx?_eq_none_iff]
    intro c hc
    rw [isDocumentChar_of_printable (hs c hc)]
    rfl
  rw [tokens, hnone]

theorem stands_start {s : List Char} (hs : Lexer.StartsToken s) :
    Lexer.Stands (.start s) s 0 [] [] true := by
  have hshows : Lexer.Shows (.start s) s 0 [] [] true := by
    constructor <;> simp [Lexer.start, Lexer.contents, Lexer.column, Cursor.column, Mark.start]
  exact hshows.stands_spaces (n := 0) hs

theorem isNext_nil : IsNext 0 [] where
  starts := fun c hc => absurd hc (by simp)
  noMarker := rfl

/-- The text of a record whose entries read back is printable and is read as the record. -/
theorem read_write_record
    {field : String × Datum} {fields : List (String × Datum)}
    (h : ∀ f ∈ field :: fields, FieldReadsBack 0 f)
    (hdistinct : ((field :: fields).map (·.1)).Nodup) :
    IsPrintable (write (.record (field :: fields))).toList ∧
      read (write (.record (field :: fields))) = .ok (.record (field :: fields)) := by
  obtain ⟨entries, hlexes, hreads, hprintable⟩ := exists_entries h
  obtain ⟨s, hs⟩ : ∃ s, s = writeEntries 0 (textEntries (field :: fields)) ++ onNextLine 0 [] :=
    ⟨_, rfl⟩
  have hwritten : (write (.record (field :: fields))).toList = s := by
    rw [hs]
    simp [write, Datum.record, textEntries, onNextLine, spaces]
  have hprinted : IsPrintable s := by
    rw [hs]
    exact hprintable.append (isPrintable_nil.cons (by decide))
  rw [hwritten]
  refine ⟨hprinted, ?_⟩
  obtain ⟨entry, more, hentry, -, -⟩ := List.forall₂_cons_left_iff.1 hlexes
  have hstarts := (isNext_writeEntries hentry fields (onNextLine 0 [])).starts
  rw [← hs] at hstarts
  have hstands := stands_start hstarts
  rw [hs] at hstands
  obtain ⟨k, hlead, hk⟩ := lexesBlock_entries hlexes _ [] [] [] 0 [] hstands rfl (Nat.le_refl 0)
    isNext_nil
  rw [← hs] at hlead
  obtain ⟨left, hleft, hrun⟩ := hlead (s.length + 2) (Nat.le_refl _)
  have hpos : 0 < left := by omega
  obtain ⟨found, hfound, hcontents⟩ := hk.streamEnd hpos
  have htokens : tokens s = (found, none) := by
    rw [tokens_of_printable hprinted, hrun, hfound]
  have hmapping := @readsNode_mapping false _ _ hreads hdistinct
  have hall : found.map Token.content =
      .blockMappingStart :: (entryContents entries ++ [.blockEnd]) ++ [.streamEnd] := by
    rw [hcontents]
    simp [Lexer.opening, Lexer.ends]
  obtain ⟨n, c, hn, hshared, hdenotes⟩ := hmapping.single (by simp [Composing.isDirective]) hall
  have hread : Document.read s = .ok (some ⟨n, []⟩) := by
    rw [Document.read, htokens]
    dsimp only
    rw [hn, ← hshared]
    rfl
  rw [read, hwritten, hread]
  exact hdenotes.value

end Arranger.Yaml
