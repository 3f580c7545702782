import Arranger.Proofs.Yaml.Composing
import Arranger.Proofs.Yaml.Quoting
import Arranger.Proofs.Yaml.Tokens
import Arranger.Yaml.Write

/-!
# Tokens of written values

The tokens of a written value are found from its text, whatever the next line holds: those of a
scalar, and those of a collection whose items or entries have theirs.  The ends of the blocks of a
value are found in front of the next line.
-/

namespace Arranger.Yaml

open Lexer (Leads Shows Stands StartsToken ends opened opening)

/-- What may stand on the line behind a value. -/
structure IsNext (column : Nat) (next : List Char) : Prop where
  starts : StartsToken next
  noMarker : startsDocumentMarker (spaces column ++ next) = false

/-- A lexer comes to the next line and finds the given contents on its way. -/
def Comes (l : Lexer) (found contents : List Token.Content) (indents : List Nat) (column : Nat)
    (next : List Char) : Prop :=
  ∃ k, Leads l k ∧ Stands k next column (found ++ contents ++ ends indents column)
    (indents.dropWhile (column < ·)) true

theorem Comes.of_leads
    {l m : Lexer} {found contents more : List Token.Content} {indents : List Nat} {column : Nat}
    {next : List Char} (hlead : Leads l m)
    (h : Comes m (found ++ contents) more indents column next) :
    Comes l found (contents ++ more) indents column next := by
  obtain ⟨k, hk, hstands⟩ := h
  refine ⟨k, hlead.trans hk, ?_⟩
  simpa using hstands

/-- The text that ends a line and indents the next one. -/
def onNextLine (column : Nat) (next : List Char) : List Char := '\n' :: spaces column ++ next

/-- The contents of an item of a list, behind its dash. -/
def LexesItem (indent : Nat) (d : Datum) (contents : List Token.Content) : Prop :=
  ∀ (l : Lexer) (found : List Token.Content) (outer : List Nat) (column : Nat) (next : List Char),
    Shows l (writeItem indent d ++ onNextLine column next) (indent + 1) found (indent :: outer)
      true → column ≤ indent → IsNext column next →
      Comes l found contents (indent :: outer) column next

/-- The contents of the value of an entry, behind its colon. -/
def LexesValue (indent : Nat) (d : Datum) (contents : List Token.Content) : Prop :=
  ∀ (l : Lexer) (start : Nat) (found : List Token.Content) (outer : List Nat) (column : Nat)
    (next : List Char),
    Shows l (writeEntryValue start indent d ++ onNextLine column next) start found
      (indent :: outer) false → indent < start → column ≤ indent → IsNext column next →
      Comes l found contents (indent :: outer) column next

/-- The contents of a block of lines, after the token that may open it. -/
def LexesBlock (indent : Nat) (text : List Char) (start : Token.Content) (contents : List Token.Content) :
    Prop :=
  ∀ (l : Lexer) (found : List Token.Content) (indents outer : List Nat) (column : Nat)
    (next : List Char),
    Stands l (text ++ onNextLine column next) indent found indents true →
      opened indents indent = indent :: outer → column ≤ indent → IsNext column next →
      Comes l found (opening indents indent start ++ contents) (indent :: outer) column next

/-! ## Lists -/

theorem opened_self (indent : Nat) (outer : List Nat) :
    opened (indent :: outer) indent = indent :: outer := by
  simp [opened]

theorem opening_self (indent : Nat) (outer : List Nat) (start : Token.Content) :
    opening (indent :: outer) indent start = [] := by
  simp [opening]

theorem opened_inner {indent inner : Nat} (h : indent < inner) (outer : List Nat) :
    opened (indent :: outer) inner = inner :: indent :: outer := by
  simp [opened, h]

theorem opening_inner
    {indent inner : Nat} (h : indent < inner) (outer : List Nat) (start : Token.Content) :
    opening (indent :: outer) inner start = [start] := by
  simp [opening, h]

theorem ends_self {indent column : Nat} (h : indent ≤ column) (outer : List Nat) :
    ends (indent :: outer) column = [] ∧
      (indent :: outer).dropWhile (column < ·) = indent :: outer :=
  Lexer.ends_of_le fun i hi => by rw [← Option.some.inj hi]; exact h

theorem ends_inner {column inner : Nat} (h : column < inner) (outer : List Nat) :
    ends (inner :: outer) column = .blockEnd :: ends outer column ∧
      (inner :: outer).dropWhile (column < ·) = outer.dropWhile (column < ·) := by
  simp [ends, h, List.replicate_succ]

/-- A block inside another one ends with it at the latest. -/
theorem Comes.endBlock
    {l : Lexer} {found contents : List Token.Content} {outer : List Nat} {inner column : Nat}
    {next : List Char} (h : Comes l found contents (inner :: outer) column next)
    (hcolumn : column < inner) : Comes l found (contents ++ [.blockEnd]) outer column next := by
  obtain ⟨k, hlead, hk⟩ := h
  obtain ⟨hends, hdrop⟩ := ends_inner hcolumn outer
  rw [hends, hdrop] at hk
  refine ⟨k, hlead, ?_⟩
  simpa using hk

theorem exists_writeItem (indent : Nat) (d : Datum) : ∃ s, writeItem indent d = ' ' :: s := by
  unfold writeItem
  split
  · exact ⟨_, rfl⟩
  · exact ⟨_, rfl⟩
  · exact ⟨_, rfl⟩

theorem writeItems_cons (indent : Nat) (d next : Datum) (rest : List Datum) :
    writeItems indent (d :: next :: rest) =
      '-' :: (writeItem indent d ++ onNextLine indent (writeItems indent (next :: rest))) := by
  rw [writeItems]
  · simp [onNextLine]
  · simp

theorem exists_writeItems (indent : Nat) (d : Datum) (ds : List Datum) :
    ∃ s, writeItems indent (d :: ds) = '-' :: ' ' :: s := by
  obtain ⟨s, hs⟩ := exists_writeItem indent d
  cases ds with
  | nil => exact ⟨s, by rw [writeItems, hs]⟩
  | cons next rest => exact ⟨_, by rw [writeItems_cons, hs]; rfl⟩

theorem startsToken_dash (s : List Char) : StartsToken ('-' :: s) := by
  intro c hc
  rw [← Option.some.inj hc]
  decide

theorem isNext_writeItems (indent : Nat) (d : Datum) (ds : List Datum) (rest : List Char) :
    IsNext indent (writeItems indent (d :: ds) ++ rest) := by
  obtain ⟨s, hs⟩ := exists_writeItems indent d ds
  rw [hs]
  refine ⟨startsToken_dash _, ?_⟩
  cases indent with
  | zero => rfl
  | succ indent => exact startsDocumentMarker_spaces (Nat.succ_pos indent) _

theorem stands_item
    {l : Lexer} {s : List Char} {indent : Nat} {found : List Token.Content} {indents : List Nat}
    (h : Stands l ('-' :: ' ' :: s) indent found indents true) :
    ∃ k, Leads l k ∧ Shows k (' ' :: s) (indent + 1)
      (found ++ (opening indents indent .blockSequenceStart ++ [.blockEntry]))
      (opened indents indent) true := by
  obtain ⟨k, hlead, hk⟩ := h.leads (fun m hm => hm.blockEntry (by decide)) (Nat.lt_succ_self _)
  exact ⟨k, hlead, by simpa using hk⟩

theorem lexesBlock_items
    {indent : Nat} {d : Datum} {ds : List Datum} {items : List (List Token.Content)}
    (h : List.Forall₂ (LexesItem indent) (d :: ds) items) :
    LexesBlock indent (writeItems indent (d :: ds)) .blockSequenceStart (itemContents items) := by
  induction ds generalizing d items with
  | nil =>
      cases h with
      | @cons _ contents _ _ hitem hnil =>
      cases hnil
      intro l found indents outer column next hl hopened hcolumn hnext
      obtain ⟨s, hs⟩ := exists_writeItem indent d
      rw [writeItems, hs] at hl
      obtain ⟨k, hlead, hk⟩ := stands_item hl
      rw [hopened] at hk
      have hcomes := hitem k _ outer column next (by rw [hs]; exact hk) hcolumn hnext
      have hwhole := Comes.of_leads hlead hcomes
      simpa [itemContents] using hwhole
  | cons second rest ih =>
      cases h with
      | @cons _ contents _ items hitem hrest =>
      intro l found indents outer column next hl hopened hcolumn hnext
      obtain ⟨s, hs⟩ := exists_writeItem indent d
      rw [writeItems_cons, hs] at hl
      simp only [List.cons_append, List.append_assoc] at hl
      obtain ⟨k, hlead, hk⟩ := stands_item hl
      rw [hopened] at hk
      have hbetween := isNext_writeItems indent second rest (onNextLine column next)
      have hcomes := hitem k _ outer indent _ (by rw [hs]; simpa [onNextLine] using hk)
        (Nat.le_refl _) hbetween
      obtain ⟨m, hleadItem, hm⟩ := Comes.of_leads hlead hcomes
      obtain ⟨hends, hdrop⟩ := ends_self (Nat.le_refl indent) outer
      rw [hends, hdrop, List.append_nil] at hm
      have hblock := ih hrest m _ (indent :: outer) outer column next hm (opened_self indent outer)
        hcolumn hnext
      rw [opening_self, List.nil_append] at hblock
      have hwhole := Comes.of_leads hleadItem hblock
      simpa [itemContents] using hwhole

theorem lexesItem_list
    {indent : Nat} {d : Datum} {ds : List Datum} {contents : List Token.Content}
    (h : LexesBlock (indent + 2) (writeItems (indent + 2) (d :: ds)) .blockSequenceStart contents) :
    LexesItem indent (.list (d :: ds)) (.blockSequenceStart :: (contents ++ [.blockEnd])) := by
  intro l found outer column next hl hcolumn hnext
  have hinner : indent < indent + 2 := by omega
  rw [writeItem] at hl
  obtain ⟨s, hs⟩ := exists_writeItems (indent + 2) d ds
  have hstands := Lexer.ShowsIn.stands_spaces (n := 1) hl (by rw [hs]; exact startsToken_dash _)
  obtain ⟨hends, hdrop⟩ := ends_self (Nat.le_of_lt hinner) outer
  rw [hends, hdrop, List.append_nil] at hstands
  have hcomes := h l found _ _ column next hstands (opened_inner hinner outer) (by omega) hnext
  rw [opening_inner hinner] at hcomes
  exact hcomes.endBlock (by omega)

theorem lexesValue_list
    {indent : Nat} {d : Datum} {ds : List Datum} {contents : List Token.Content}
    (h : LexesBlock indent (writeItems indent (d :: ds)) .blockSequenceStart contents) :
    LexesValue indent (.list (d :: ds)) contents := by
  intro l start found outer column next hl _ hcolumn hnext
  rw [writeEntryValue] at hl
  obtain ⟨s, hs⟩ := exists_writeItems indent d ds
  simp only [List.cons_append, List.append_assoc] at hl
  have hstands := Lexer.ShowsIn.stands_feed hl (by rw [hs]; exact startsToken_dash _)
  obtain ⟨hends, hdrop⟩ := ends_self (Nat.le_refl indent) outer
  rw [hends, hdrop, List.append_nil] at hstands
  have hcomes := h l found _ _ column next hstands (opened_self indent outer) hcolumn hnext
  rwa [opening_self] at hcomes

/-! ## Mappings -/

theorem runs_of_word {s : List Char} (hs : ∀ c ∈ s, RunKind.of c = .word) (hne : s ≠ []) :
    runs s = [(.word, s)] := by
  induction s with
  | nil => exact absurd rfl hne
  | cons c rest ih =>
      have hc := hs c (by simp)
      cases rest with
      | nil => simp [runs, hc]
      | cons d rest =>
          have hrest := ih (fun e he => hs e (by simp [he])) (by simp)
          rw [runs, hrest]
          simp [hc]

theorem writePlain_word
    {s : List Char} (hs : ∀ c ∈ s, RunKind.of c = .word) (hne : s ≠ []) (mayFold : Bool)
    (column indent : Nat) : writePlain mayFold column indent s = s := by
  rw [writePlain, runs_of_word hs hne]
  simp [writeRuns]

theorem hasNeighbours_of_notMem {a b : Char} {s : List Char} (ha : a ∉ s) :
    hasNeighbours a b s = false := by
  induction s with
  | nil => rfl
  | cons c rest ih =>
      simp only [List.mem_cons, not_or] at ha
      cases rest with
      | nil => rfl
      | cons d rest =>
          have hne : ¬c = a := fun heq => ha.1 heq.symm
          rw [hasNeighbours, ih ha.2]
          simp [hne]

theorem hasInnerIndicator_of_notMem
    {previous : Char} {s : List Char} (hcolon : ':' ∉ s) (hhash : '#' ∉ s) :
    hasInnerIndicator previous s = false := by
  induction s generalizing previous with
  | nil => rfl
  | cons c rest ih =>
      simp only [List.mem_cons, not_or] at hcolon hhash
      have hcolonNe : ¬c = ':' := fun heq => hcolon.1 heq.symm
      have hhashNe : ¬c = '#' := fun heq => hhash.1 heq.symm
      rw [hasInnerIndicator, ih hcolon.2 hhash.2]
      simp [hcolonNe, hhashNe]

theorem Lexer.IsKeyName.notMem
    {s : List Char} (hs : Lexer.IsKeyName s) {d : Char} (hd : Text.isLowerLetter d = false) :
    d ∉ s := fun hmem => Lexer.ne_of_isLowerLetter (hs.letters d hmem) hd rfl

theorem Lexer.IsKeyName.hasIndicator {s : List Char} (hs : Lexer.IsKeyName s) :
    hasIndicator s = false := by
  cases s with
  | nil => rfl
  | cons c rest =>
      have hc := hs.letters c (by simp)
      have hbegins := Lexer.beginsPlain_of_isLowerLetter hc ' '
      have hmarker : startsDocumentMarker (c :: rest) = false := by
        unfold startsDocumentMarker
        split
        · next heq => exact absurd (List.cons.inj heq).1 (Lexer.ne_of_isLowerLetter hc (by decide))
        · next heq => exact absurd (List.cons.inj heq).1 (Lexer.ne_of_isLowerLetter hc (by decide))
        · rfl
      have hinner : hasInnerIndicator c rest = false :=
        hasInnerIndicator_of_notMem (fun h => hs.notMem (d := ':') (by decide) (by simp [h]))
          (fun h => hs.notMem (d := '#') (by decide) (by simp [h]))
      have hleading : isLeadingIndicator c rest = false := by
        unfold isLeadingIndicator
        rw [hbegins.noIndicator]
        simp [Lexer.ne_of_isLowerLetter hc (d := '?') (by decide),
          Lexer.ne_of_isLowerLetter hc (d := ':') (by decide),
          Lexer.ne_of_isLowerLetter hc (d := '-') (by decide)]
      rw [Yaml.hasIndicator, hmarker, hleading, hinner]
      rfl

theorem writeScalar_key
    {name : String} (hname : Lexer.IsKeyName name.toList) (htag : implicitTag name = .str)
    (column indent : Nat) : writeScalar false column indent (.text name) = name.toList := by
  have hprintable : name.toList.any needsEscape = false := by
    rw [List.any_eq_false]
    intro c hc
    simp [needsEscape, Lexer.isPlainAscii_of_isLowerLetter (hname.letters c hc)]
  have hspace : ' ' ∉ name.toList := hname.notMem (by decide)
  have hbreak : '\n' ∉ name.toList := hname.notMem (by decide)
  have hhead : name.toList.head? ≠ some ' ' := fun h => hspace (List.mem_of_head? h)
  have hlast : name.toList.getLast? ≠ some ' ' := fun h => hspace (List.mem_of_getLast? h)
  have hstyle : styleOf name.toList = .plain := by
    have hplain : allowsPlain name.toList = true := by
      simp [allowsPlain, hbreak, hhead, hlast, hname.hasIndicator, htag]
    simp [styleOf, hprintable, hasNeighbours_of_notMem hspace, hasNeighbours_of_notMem hbreak, hplain]
  have hwords : ∀ c ∈ name.toList, RunKind.of c = .word := by
    intro c hc
    have hletter := hname.letters c hc
    exact (RunKind.of_eq_word_iff c).2 ⟨Lexer.ne_of_isLowerLetter hletter (by decide),
      Lexer.ne_of_isLowerLetter hletter (by decide)⟩
  rw [writeScalar, writeText, hstyle]
  exact writePlain_word hwords hname.ne_nil false column indent

theorem exists_writeEntryValue (column indent : Nat) (d : Datum) :
    ∃ c s, writeEntryValue column indent d = c :: s ∧ isGap c = true := by
  unfold writeEntryValue
  split
  · exact ⟨'\n', _, rfl, by decide⟩
  · exact ⟨'\n', _, rfl, by decide⟩
  · exact ⟨' ', _, rfl, by decide⟩

/-- The contents of an entry are those of its key and of its value. -/
structure LexesEntry (indent : Nat) (field : String × Datum) (entry : String × List Token.Content) :
    Prop where
  name : entry.1 = field.1
  isKeyName : Lexer.IsKeyName field.1.toList
  isText : implicitTag field.1 = .str
  value : LexesValue indent field.2 entry.2

/-- The entries of a mapping with text keys. -/
def textEntries (fields : List (String × Datum)) : List (Datum × Datum) :=
  fields.map fun (name, value) => (.text name, value)

/-- What is written for an entry. -/
def writtenEntry (indent : Nat) (field : String × Datum) : List Char :=
  field.1.toList ++ ':' :: writeEntryValue (indent + field.1.toList.length + 1) indent field.2

theorem writeEntries_single
    {indent : Nat} {field : String × Datum} {entry : String × List Token.Content}
    (h : LexesEntry indent field entry) :
    writeEntries indent (textEntries [field]) = writtenEntry indent field := by
  simp only [textEntries, List.map_cons, List.map_nil]
  rw [writeEntries, writeScalar_key h.isKeyName h.isText]
  rfl

theorem writeEntries_cons
    {indent : Nat} {field : String × Datum} {entry : String × List Token.Content}
    (h : LexesEntry indent field entry) (next : String × Datum) (rest : List (String × Datum)) :
    writeEntries indent (textEntries (field :: next :: rest)) = writtenEntry indent field ++
      onNextLine indent (writeEntries indent (textEntries (next :: rest))) := by
  simp only [textEntries, List.map_cons]
  rw [writeEntries, writeScalar_key h.isKeyName h.isText]
  · simp [writtenEntry, onNextLine]
  · simp

theorem isNext_writeEntries
    {indent : Nat} {field : String × Datum} {entry : String × List Token.Content}
    (h : LexesEntry indent field entry) (fields : List (String × Datum)) (rest : List Char) :
    IsNext indent (writeEntries indent (textEntries (field :: fields)) ++ rest) := by
  obtain ⟨c, name, hname⟩ := List.exists_cons_of_ne_nil h.isKeyName.ne_nil
  have hc := h.isKeyName.letters c (by simp [hname])
  obtain ⟨s, hs⟩ : ∃ s, writeEntries indent (textEntries (field :: fields)) = c :: s := by
    cases fields with
    | nil => exact ⟨_, by rw [writeEntries_single h, writtenEntry, hname]; rfl⟩
    | cons next more => exact ⟨_, by rw [writeEntries_cons h, writtenEntry, hname]; rfl⟩
  rw [hs]
  constructor
  · intro d hd
    rw [← Option.some.inj hd]
    have hinline := isInline_of_isPlainAscii (Lexer.isPlainAscii_of_isLowerLetter hc)
    exact ⟨Lexer.ne_of_isLowerLetter hc (by decide), Lexer.ne_of_isLowerLetter hc (by decide),
      hinline.1, hinline.2⟩
  · cases indent with
    | zero =>
        unfold startsDocumentMarker
        split
        · next heq => exact absurd (List.cons.inj heq).1 (Lexer.ne_of_isLowerLetter hc (by decide))
        · next heq => exact absurd (List.cons.inj heq).1 (Lexer.ne_of_isLowerLetter hc (by decide))
        · rfl
    | succ indent => exact startsDocumentMarker_spaces (Nat.succ_pos indent) _

theorem comes_entry
    {l : Lexer} {indent : Nat} {field : String × Datum} {entry : String × List Token.Content}
    (hentry : LexesEntry indent field entry) {found : List Token.Content} {indents outer : List Nat}
    {column : Nat} {next : List Char}
    (hl : Stands l (writtenEntry indent field ++ onNextLine column next) indent found indents true)
    (hopened : opened indents indent = indent :: outer) (hcolumn : column ≤ indent)
    (hnext : IsNext column next) :
    Comes l found (opening indents indent .blockMappingStart ++ entryContents [entry])
      (indent :: outer) column next := by
  obtain ⟨name, contents⟩ := entry
  obtain rfl : name = field.1 := hentry.name
  obtain ⟨c, s, hs, hc⟩ := exists_writeEntryValue (indent + field.1.toList.length + 1) indent field.2
  have hle : ∀ i, indents.head? = some i → i ≤ indent := by
    intro i hi
    cases indents with
    | nil => simp at hi
    | cons j rest =>
        obtain rfl : j = i := by simpa using hi
        by_contra hlt
        have hkept : opened (j :: rest) indent = j :: rest := by
          have hnot : ¬j < indent := by omega
          simp [opened, hnot]
        rw [hkept] at hopened
        exact hlt (Nat.le_of_eq (List.cons.inj hopened).1)
  rw [writtenEntry, hs, List.append_assoc] at hl
  obtain ⟨k, hlead, hk⟩ := hl.key hentry.isKeyName hc hle
  rw [hopened, List.append_assoc] at hk
  have hvalue := hentry.value k (indent + field.1.toList.length + 1) _ outer column next
    (by rw [hs]; exact hk) (by omega) hcolumn hnext
  have hwhole := Comes.of_leads hlead hvalue
  simpa [entryContents] using hwhole

theorem lexesBlock_entries
    {indent : Nat} {field : String × Datum} {fields : List (String × Datum)}
    {entries : List (String × List Token.Content)}
    (h : List.Forall₂ (LexesEntry indent) (field :: fields) entries) :
    LexesBlock indent (writeEntries indent (textEntries (field :: fields))) .blockMappingStart
      (entryContents entries) := by
  induction fields generalizing field entries with
  | nil =>
      cases h with
      | @cons _ entry _ _ hentry hnil =>
      cases hnil
      intro l found indents outer column next hl hopened hcolumn hnext
      rw [writeEntries_single hentry] at hl
      exact comes_entry hentry hl hopened hcolumn hnext
  | cons second rest ih =>
      cases h with
      | @cons _ entry _ entries hentry hrest =>
      intro l found indents outer column next hl hopened hcolumn hnext
      rw [writeEntries_cons hentry, List.append_assoc] at hl
      obtain ⟨secondEntry, more, hsecond, -, -⟩ := List.forall₂_cons_left_iff.1 hrest
      have hbetween := isNext_writeEntries hsecond rest (onNextLine column next)
      obtain ⟨m, hlead, hm⟩ := comes_entry hentry (by simpa [onNextLine] using hl) hopened
        (Nat.le_refl _) hbetween
      obtain ⟨hends, hdrop⟩ := ends_self (Nat.le_refl indent) outer
      rw [hends, hdrop, List.append_nil] at hm
      have hblock := ih hrest m _ (indent :: outer) outer column next hm (opened_self indent outer)
        hcolumn hnext
      rw [opening_self, List.nil_append] at hblock
      have hwhole := Comes.of_leads hlead hblock
      simpa [entryContents] using hwhole

theorem lexesItem_map
    {indent : Nat} {field : String × Datum} {fields : List (String × Datum)}
    {entries : List (String × List Token.Content)}
    (h : List.Forall₂ (LexesEntry (indent + 2)) (field :: fields) entries) :
    LexesItem indent (.record (field :: fields))
      (.blockMappingStart :: (entryContents entries ++ [.blockEnd])) := by
  intro l found outer column next hl hcolumn hnext
  have hinner : indent < indent + 2 := by omega
  have hwritten : writeItem indent (.record (field :: fields)) =
      ' ' :: writeEntries (indent + 2) (textEntries (field :: fields)) := by
    rw [Datum.record, List.map_cons, writeItem]
    rfl
  rw [hwritten] at hl
  obtain ⟨entry, more, hentry, -, -⟩ := List.forall₂_cons_left_iff.1 h
  have hstarts := (isNext_writeEntries hentry fields (onNextLine column next)).starts
  have hstands := Lexer.ShowsIn.stands_spaces (n := 1) hl hstarts
  obtain ⟨hends, hdrop⟩ := ends_self (Nat.le_of_lt hinner) outer
  rw [hends, hdrop, List.append_nil] at hstands
  have hcomes := lexesBlock_entries h l found _ _ column next hstands (opened_inner hinner outer)
    (by omega) hnext
  rw [opening_inner hinner] at hcomes
  exact hcomes.endBlock (by omega)

end Arranger.Yaml
