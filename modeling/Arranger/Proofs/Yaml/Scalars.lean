import Arranger.Proofs.Yaml.Blocks

/-!
# Tokens of written scalars

A text is written plainly only if it begins no other token, and is read back as the same text in
every style.  Other values that fit on a line are plain words or an empty list.
-/

namespace Arranger.Yaml

open Lexer (BeginsPlain Leads Shows Stands StartsToken ends inner)

/-! ## Values on a line -/

/-- The value is written on its line, without lines of its own. -/
def IsFlat : Datum → Prop
  | .list (_ :: _) => False
  | .map (_ :: _) => False
  | _ => True

theorem writeItem_of_isFlat {d : Datum} (hd : IsFlat d) (indent : Nat) :
    writeItem indent d = ' ' :: writeScalar true (indent + 2) (indent + 2) d := by
  unfold writeItem
  split
  · exact absurd hd not_false
  · exact absurd hd not_false
  · rfl

theorem writeEntryValue_of_isFlat {d : Datum} (hd : IsFlat d) (column indent : Nat) :
    writeEntryValue column indent d = ' ' :: writeScalar true (column + 1) (indent + 2) d := by
  unfold writeEntryValue
  split
  · exact absurd hd not_false
  · exact absurd hd not_false
  · rfl

/-- The contents of a value on a line, behind a blank. -/
def LexesScalar (indent : Nat) (d : Datum) (contents : List Token.Content) : Prop :=
  ∀ (l : Lexer) (start : Nat) (found : List Token.Content) (outer : List Nat) (allowsKey : Bool)
    (column : Nat) (next : List Char),
    Stands l (writeScalar true start (indent + 2) d ++ onNextLine column next) start found
      (indent :: outer) allowsKey → indent < start → column ≤ indent → IsNext column next →
      Comes l found contents (indent :: outer) column next

/-- A value on a line whose text begins with a token. -/
structure WritesScalar (indent : Nat) (d : Datum) (contents : List Token.Content) : Prop where
  isFlat : IsFlat d
  starts : ∀ start rest, StartsToken (writeScalar true start (indent + 2) d ++ rest)
  lexes : LexesScalar indent d contents

theorem WritesScalar.stands
    {indent : Nat} {d : Datum} {contents : List Token.Content} (h : WritesScalar indent d contents)
    {l : Lexer} {start : Nat} {found : List Token.Content} {outer : List Nat} {allowsKey : Bool}
    {rest : List Char}
    (hl : Shows l (' ' :: writeScalar true (start + 1) (indent + 2) d ++ rest) start found
      (indent :: outer) allowsKey) (hstart : indent < start) :
    Stands l (writeScalar true (start + 1) (indent + 2) d ++ rest) (start + 1) found
      (indent :: outer) allowsKey := by
  have hstands := Lexer.ShowsIn.stands_spaces (n := 1) hl (h.starts (start + 1) rest)
  obtain ⟨hends, hdrop⟩ := ends_self (Nat.le_succ_of_le (Nat.le_of_lt hstart)) outer
  rwa [hends, hdrop, List.append_nil] at hstands

theorem WritesScalar.lexesItem
    {indent : Nat} {d : Datum} {contents : List Token.Content} (h : WritesScalar indent d contents) :
    LexesItem indent d contents := by
  intro l found outer column next hl hcolumn hnext
  rw [writeItem_of_isFlat h.isFlat] at hl
  have hstands := h.stands hl (Nat.lt_succ_self indent)
  exact h.lexes l _ found outer true column next hstands (by omega) hcolumn hnext

theorem WritesScalar.lexesValue
    {indent : Nat} {d : Datum} {contents : List Token.Content} (h : WritesScalar indent d contents) :
    LexesValue indent d contents := by
  intro l start found outer column next hl hstart hcolumn hnext
  rw [writeEntryValue_of_isFlat h.isFlat] at hl
  have hstands := h.stands hl hstart
  exact h.lexes l _ found outer false column next hstands (by omega) hcolumn hnext

/-! ## Behind a scalar -/

theorem comes_of_line
    {l k : Lexer} {content : List Token.Content} {found : List Token.Content} {indents : List Nat}
    {column behind : Nat} {next : List Char} {allowsKey : Bool} (hlead : Leads l k)
    (hk : Shows k (onNextLine column next) behind (found ++ content) indents allowsKey)
    (hnext : IsNext column next) : Comes l found content indents column next :=
  ⟨k, hlead, hk.stands_feed hnext.starts⟩

theorem comes_of_next
    {l k : Lexer} {content : List Token.Content} {found : List Token.Content} {indents : List Nat}
    {column : Nat} {next : List Char} (hlead : Leads l k)
    (hk : Shows k next column (found ++ content) indents true)
    (hnext : IsNext column next) : Comes l found content indents column next :=
  ⟨k, hlead, Lexer.ShowsIn.stands_spaces (n := 0) hk hnext.starts⟩

theorem comes_plain
    {l : Lexer} {written text : List Char} {c : Char} {tail : List Char} {indent start : Nat}
    {found : List Token.Content} {outer : List Nat} {allowsKey : Bool} {column : Nat} {next : List Char}
    (hl : Stands l (written ++ onNextLine column next) start found (indent :: outer) allowsKey)
    (hstart : indent < start) (hnext : IsNext column next)
    (hwritten : written ++ onNextLine column next = c :: tail)
    (hbegins : BeginsPlain c (tail.headD ending))
    (hread : ∀ k : Mark, indent + 1 ≤ k.column → ∃ stop mark,
      plainScalar false (indent + 1) ⟨written ++ onNextLine column next, k⟩ =
        ⟨text, stop, true, ⟨next, mark⟩⟩ ∧ mark.column = column) :
    Comes l found [.scalar ⟨.text (String.ofList text), true⟩] (indent :: outer) column next := by
  obtain ⟨k, hlead, hk⟩ : ∃ k, Leads l k ∧ Shows k next column
      (found ++ [.scalar ⟨.text (String.ofList text), true⟩]) (indent :: outer) true := by
    refine hl.leads ?_ ?_
    · intro m hm
      have hcursor : m.cursor = ⟨written ++ onNextLine column next, m.cursor.mark⟩ := by rw [← hm.rest]
      obtain ⟨stop, mark, hplain, hmark⟩ := hread m.cursor.mark (by
        have hcolumn : m.cursor.mark.column = start := hm.column
        omega)
      rw [← hcursor] at hplain
      have hpeek : m.cursor.peek = c := by rw [hcursor, hwritten]; rfl
      have hpeekNext : m.cursor.peekAt 1 = tail.headD ending := by
        rw [hcursor, hwritten]
        cases tail <;> rfl
      have hne : (indent :: outer).head? ≠ some start := by
        intro heq
        exact absurd (Option.some.inj heq) (Nat.ne_of_lt hstart)
      have hdispatch := hm.plain hbegins hpeek hpeekNext (.inl (by omega)) hne hplain
      rwa [hmark] at hdispatch
    · simp [onNextLine]
      omega
  exact comes_of_next hlead hk hnext

/-! ## Plain words -/

/-- A word that a plain scalar may begin with. -/
def BeginsPlainly : List Char → Prop
  | [] => False
  | c :: rest => "#,[]\x7b\x7d&*!|>'\"%@`".toList.contains c = false ∧
      (c = '?' ∨ c = ':' ∨ c = '-' → ∃ d, rest.head? = some d ∧ isGap d = false)

theorem BeginsPlainly.beginsPlain
    {c : Char} {w rest : List Char} (h : BeginsPlainly (c :: w)) (hc : isGap c = false) :
    BeginsPlain c ((w ++ rest).headD ending) where
  noIndicator := h.1
  noGap := hc
  next := by
    intro hspecial
    obtain ⟨d, hd, hgap⟩ := h.2 hspecial
    obtain ⟨tail, rfl⟩ := List.head?_eq_some_iff.1 hd
    exact hgap

theorem startsToken_of_isPlainAscii
    {c : Char} {s : List Char} (hascii : isPlainAscii c = true) (hspace : c ≠ ' ') (hhash : c ≠ '#') :
    StartsToken (c :: s) := by
  intro d hd
  rw [← Option.some.inj hd]
  have hinline := isInline_of_isPlainAscii hascii
  exact ⟨hspace, hhash, hinline.1, hinline.2⟩

theorem IsPlainWord.startsToken {w : List Char} (hw : IsPlainWord w) (rest : List Char) :
    StartsToken (w ++ rest) := by
  obtain ⟨c, w, rfl⟩ := List.exists_cons_of_ne_nil hw.ne_nil
  refine startsToken_of_isPlainAscii (hw.ascii c (by simp)) (hw.noSpace c (by simp)) ?_
  rintro rfl
  exact hw.noHash rfl

theorem isNextLine_of_isNext
    {indent column : Nat} {next : List Char} (hcolumn : column ≤ indent) (hnext : IsNext column next) :
    IsNextLine (indent + 1) column next :=
  ⟨hnext.starts, hnext.noMarker, Nat.lt_succ_of_le hcolumn⟩

theorem writesScalar_word
    {d : Datum} {w : List Char} (hflat : IsFlat d)
    (hwritten : ∀ column indent, writeScalar true column indent d = w) (hw : IsPlainWord w)
    (hbegins : BeginsPlainly w) (indent : Nat) :
    WritesScalar indent d [.scalar ⟨.text (String.ofList w), true⟩] where
  isFlat := hflat
  starts := fun start rest => by rw [hwritten]; exact hw.startsToken rest
  lexes := by
    intro l start found outer allowsKey column next hl hstart hcolumn hnext
    rw [hwritten] at hl
    obtain ⟨c, tail, hcons⟩ := List.exists_cons_of_ne_nil hw.ne_nil
    have hgap : isGap c = false := hw.isGap c (by simp [hcons])
    rw [hcons] at hbegins
    have hwhole : w ++ onNextLine column next = c :: (tail ++ onNextLine column next) := by
      rw [hcons]
      rfl
    refine comes_plain hl hstart hnext hwhole (hbegins.beginsPlain hgap) ?_
    intro k hk
    have hjoined : joined [(RunKind.word, w)] = w := by simp [joined]
    obtain ⟨stop, mark, hpieces, hmark⟩ := @plainPieces_writeRuns true _ (PlainRuns.last hw)
      (indent + 1) (indent + 1) column next (isNextLine_of_isNext hcolumn hnext) (Nat.le_refl _) true
      start ((w ++ onNextLine column next).length + 1) []
      ⟨[], k, false, ⟨w ++ onNextLine column next, k⟩⟩ k (by simp) (by simp [writeRuns, onNextLine]) hk
    rw [hjoined] at hpieces
    exact ⟨stop, mark, hpieces, hmark⟩

theorem writesScalar_emptyList (indent : Nat) :
    WritesScalar indent (.list []) [.flowSequenceStart, .flowSequenceEnd] where
  isFlat := trivial
  starts := by
    intro start rest c hc
    have hbracket : c = '[' := by simpa [writeScalar] using hc.symm
    rw [hbracket]
    decide
  lexes := by
    intro l start found outer allowsKey column next hl hstart hcolumn hnext
    have hne : (indent :: outer).head? ≠ some start := by
      intro heq
      exact absurd (Option.some.inj heq) (Nat.ne_of_lt hstart)
    have hbrackets : writeScalar true start (indent + 2) (.list []) ++ onNextLine column next =
        '[' :: ']' :: onNextLine column next := by
      simp [writeScalar]
    rw [hbrackets] at hl
    obtain ⟨k, hlead, hk⟩ := hl.emptySequence hne
    exact comes_of_line hlead hk hnext

/-! ## Texts -/

theorem exists_runs (c : Char) (rest : List Char) :
    ∃ w more, runs (c :: rest) = (RunKind.of c, c :: w) :: more := by
  unfold runs
  split
  · next kind run more hruns =>
    by_cases hkind : kind = RunKind.of c
    · exact ⟨run, more, by simp [hkind]⟩
    · exact ⟨[], (kind, run) :: more, by simp [hkind]⟩
  · exact ⟨[], [], rfl⟩

/-- A word of two characters at least is written with both of them. -/
theorem exists_writePlain
    {c d : Char} (hc : RunKind.of c = .word) (hd : RunKind.of d = .word) (rest : List Char)
    (mayFold : Bool) (column indent : Nat) :
    ∃ s, writePlain mayFold column indent (c :: d :: rest) = c :: d :: s := by
  obtain ⟨w, more, hruns⟩ := exists_runs d rest
  rw [hd] at hruns
  have hwhole : runs (c :: d :: rest) = (.word, c :: d :: w) :: more := by
    rw [runs, hruns]
    simp [hc]
  rw [writePlain, hwhole]
  exact ⟨_, rfl⟩

theorem exists_writePlain_head
    {c : Char} (hc : RunKind.of c = .word) (rest : List Char) (mayFold : Bool)
    (column indent : Nat) : ∃ s, writePlain mayFold column indent (c :: rest) = c :: s := by
  obtain ⟨w, more, hruns⟩ := exists_runs c rest
  rw [hc] at hruns
  rw [writePlain, hruns]
  exact ⟨_, rfl⟩

/-- A text that is written plainly. -/
structure IsPlainText (c : Char) (rest : List Char) : Prop where
  ascii : ∀ d ∈ c :: rest, isPlainAscii d = true
  noSpace : c ≠ ' '
  noSpaceEnd : (c :: rest).getLast? ≠ some ' '
  notLeading : isLeadingIndicator c rest = false
  noInner : hasInnerIndicator c rest = false
  isText : implicitTag (String.ofList (c :: rest)) = .str

theorem isPlainText_of_styleOf {s : List Char} (hs : styleOf s = .plain) :
    ∃ c rest, s = c :: rest ∧ IsPlainText c rest := by
  unfold styleOf at hs
  split at hs
  · exact absurd hs (by decide)
  · next hform =>
    simp only [Bool.or_eq_true, not_or, Bool.not_eq_true] at hform
    split at hs
    · next hplain =>
      simp only [allowsPlain, Bool.and_eq_true, Bool.not_eq_true', decide_eq_true_eq, bne_iff_ne]
        at hplain
      obtain ⟨⟨⟨⟨hbreak, hhead⟩, hlast⟩, hindicator⟩, htag⟩ := hplain
      cases s with
      | nil => exact absurd (implicitTag_empty.symm.trans htag) (by decide)
      | cons c rest =>
          simp only [hasIndicator, Bool.or_eq_false_iff] at hindicator
          refine ⟨c, rest, rfl, ?_, ?_, hlast, hindicator.1.2, hindicator.2, htag⟩
          · intro d hd
            have hprintable := List.any_eq_false.1 hform.1.1 d hd
            apply isPlainAscii_of_printable (by simpa using hprintable)
            rintro rfl
            rw [← Bool.not_eq_true, List.contains_iff_mem] at hbreak
            exact hbreak hd
          · rintro rfl
            exact hhead rfl
    · exact absurd hs (by decide)

namespace IsPlainText

variable {c : Char} {rest : List Char}

theorem kind (h : IsPlainText c rest) : RunKind.of c = .word := by
  rw [RunKind.of_eq_word_iff]
  refine ⟨h.noSpace, ?_⟩
  rintro rfl
  have hbreak := h.ascii '\n' (by simp)
  exact absurd hbreak (by decide)

theorem noIndicator (h : IsPlainText c rest) :
    "#,[]\x7b\x7d&*!|>'\"%@`".toList.contains c = false :=
  (Bool.or_eq_false_iff.1 h.notLeading).1

theorem ne (h : IsPlainText c rest) {d : Char}
    (hd : "#,[]\x7b\x7d&*!|>'\"%@`".toList.contains d = true) : c ≠ d := by
  rintro rfl
  rw [h.noIndicator] at hd
  exact absurd hd (by decide)

/-- A character that could be an indicator stands in front of another one. -/
theorem exists_next (h : IsPlainText c rest) (hc : c = '?' ∨ c = ':' ∨ c = '-') :
    ∃ d more, rest = d :: more ∧ RunKind.of d = .word ∧ isGap d = false := by
  have hblank := (Bool.or_eq_false_iff.1 h.notLeading).2
  have hspecial : (decide (c = '?') || decide (c = ':') || decide (c = '-')) = true := by
    rcases hc with rfl | rfl | rfl <;> decide
  rw [hspecial, Bool.true_and] at hblank
  cases rest with
  | nil => exact absurd hblank (by decide)
  | cons d more =>
      have hd : isSpaceOrBreak d = false := hblank
      simp only [isSpaceOrBreak, Bool.or_eq_false_iff, decide_eq_false_iff_not] at hd
      exact ⟨d, more, rfl, (RunKind.of_eq_word_iff d).2 hd,
        isGap_of_isPlainAscii (h.ascii d (by simp)) hd.1⟩

theorem isPlainBody (h : IsPlainText c rest) : IsPlainBody ' ' (c :: rest) where
  ascii := h.ascii
  noSpaceEnd := h.noSpaceEnd
  noIndicator := by
    have hhash : c ≠ '#' := h.ne (by decide)
    have hcolon : (decide (c = ':') && rest.head?.all isSpaceOrBreak) = false := by
      by_cases hc : c = ':'
      · obtain ⟨d, more, rfl, hd, -⟩ := h.exists_next (.inr (.inl hc))
        obtain ⟨hspace, hbreak⟩ := (RunKind.of_eq_word_iff d).1 hd
        simp [isSpaceOrBreak, hspace, hbreak]
      · simp [hc]
    rw [hasInnerIndicator, hcolon, h.noInner]
    simp [hhash]

end IsPlainText

theorem writesScalar_plainText
    {s : String} (hs : styleOf s.toList = .plain) (indent : Nat) :
    WritesScalar indent (.text s) [.scalar ⟨.text s, true⟩] := by
  obtain ⟨c, rest, hcons, hplain⟩ := isPlainText_of_styleOf hs
  have hwritten : ∀ column, writeScalar true column (indent + 2) (.text s) =
      writePlain true column (indent + 2) (c :: rest) := by
    intro column
    rw [writeScalar, writeText, hs, hcons]
  refine ⟨trivial, ?_, ?_⟩
  · intro start more
    obtain ⟨tail, htail⟩ := exists_writePlain_head hplain.kind rest true start (indent + 2)
    rw [hwritten, htail]
    exact startsToken_of_isPlainAscii (hplain.ascii c (by simp)) hplain.noSpace
      (hplain.ne (by decide))
  · intro l start found outer allowsKey column next hl hstart hcolumn hnext
    rw [hwritten] at hl
    obtain ⟨tail, htail⟩ := exists_writePlain_head hplain.kind rest true start (indent + 2)
    have hbegins : BeginsPlain c ((tail ++ onNextLine column next).headD ending) := by
      refine ⟨hplain.noIndicator, isGap_of_isPlainAscii (hplain.ascii c (by simp)) hplain.noSpace, ?_⟩
      intro hspecial
      obtain ⟨d, more, hrest, hd, hgap⟩ := hplain.exists_next hspecial
      obtain ⟨behind, hbehind⟩ := exists_writePlain hplain.kind hd more true start (indent + 2)
      rw [← hrest, htail] at hbehind
      rw [(List.cons.inj hbehind).2]
      exact hgap
    have hread : ∀ k : Mark, indent + 1 ≤ k.column → ∃ stop mark,
        plainScalar false (indent + 1)
          ⟨writePlain true start (indent + 2) (c :: rest) ++ onNextLine column next, k⟩ =
            ⟨c :: rest, stop, true, ⟨next, mark⟩⟩ ∧ mark.column = column := by
      intro k hk
      have hhead : (c :: rest).head? ≠ some ' ' := fun heq => hplain.noSpace (Option.some.inj heq)
      exact plainScalar_writePlain hplain.isPlainBody hhead (by simp)
        (isNextLine_of_isNext hcolumn hnext) (Nat.le_succ _) hk
    have hcomes := comes_plain hl hstart hnext (by rw [htail]; rfl) hbegins hread
    rwa [← hcons, String.ofList_toList] at hcomes

theorem comes_quoted
    {l : Lexer} {quotes : Quotes} {written : List Char} {points : List CodePoint}
    {indent start : Nat} {found : List Token.Content} {outer : List Nat} {allowsKey : Bool}
    {column : Nat} {next : List Char}
    (hl : Stands l (quotes.mark :: written ++ onNextLine column next) start found (indent :: outer)
      allowsKey)
    (hstart : indent < start) (hnext : IsNext column next)
    (hread : ReadsOn quotes (written ++ onNextLine column next) points (onNextLine column next)) :
    Comes l found [.scalar ⟨.ofPoints points, false⟩] (indent :: outer) column next := by
  have hne : (indent :: outer).head? ≠ some start := by
    intro heq
    exact absurd (Option.some.inj heq) (Nat.ne_of_lt hstart)
  obtain ⟨m, hprepared, hm⟩ := hl.prepared
  have hcursor : m.cursor = ⟨quotes.mark :: (written ++ onNextLine column next), m.cursor.mark⟩ := by
    rw [← List.cons_append, ← hm.rest]
  obtain ⟨mark, hscalar⟩ := hread.quotedScalar m.cursor.mark
  rw [← hcursor] at hscalar
  obtain ⟨k, hdispatch, hk⟩ := Lexer.ShowsIn.quoted hm hne hscalar
  have hlength := hl.length_le
  simp only [List.length_append, List.length_cons] at hlength
  obtain ⟨k, hlead, hk⟩ := Lexer.leads_of_dispatch hl.isDone hprepared hdispatch hk (by omega)
  exact comes_of_line hlead hk hnext

theorem head?_onNextLine_ne (column : Nat) (next : List Char) :
    (onNextLine column next).head? ≠ some '\'' := by
  simp [onNextLine]

theorem writesScalar_singleText
    {s : String} (hs : styleOf s.toList = .single) (indent : Nat) :
    WritesScalar indent (.text s) [.scalar ⟨.text s, false⟩] := by
  have hquotable : IsQuotable s.toList := by
    unfold styleOf at hs
    split at hs
    · exact absurd hs (by decide)
    · next hform =>
      simp only [Bool.or_eq_true, not_or, Bool.not_eq_true] at hform
      refine ⟨?_, hform.1.2, hform.2⟩
      intro c hc
      simpa using List.any_eq_false.1 hform.1.1 c hc
  have hwritten : ∀ column, writeScalar true column (indent + 2) (.text s) =
      '\'' :: (writeRuns true doubleQuotes (indent + 2) true (column + 1) (runs s.toList) ++ ['\'']) := by
    intro column
    rw [writeScalar, writeText, hs]
    rfl
  refine ⟨trivial, ?_, ?_⟩
  · intro start rest c hc
    rw [hwritten] at hc
    rw [← Option.some.inj hc]
    decide
  · intro l start found outer allowsKey column next hl hstart _ hnext
    rw [hwritten] at hl
    have hread := readsOn_writeSingle hquotable (head?_onNextLine_ne column next)
      (Nat.succ_pos (indent + 1)) true (start + 1)
    have hcomes := @comes_quoted _ .single _ _ _ _ _ _ _ _ _ hl hstart hnext (by simpa using hread)
    rwa [Label.ofPoints_chars, String.ofList_toList] at hcomes

theorem writesScalar_double
    {d : Datum} {points : List CodePoint} {indent : Nat} (hflat : IsFlat d)
    (hwritten : ∀ column, writeScalar true column (indent + 2) d =
      writeDouble true column (indent + 2) points) (hindent : indent + 2 < lineWidth) :
    WritesScalar indent d [.scalar ⟨.ofPoints points, false⟩] := by
  refine ⟨hflat, ?_, ?_⟩
  · intro start rest c hc
    rw [hwritten] at hc
    rw [← Option.some.inj hc]
    decide
  · intro l start found outer allowsKey column next hl hstart _ hnext
    rw [hwritten, writeDouble] at hl
    have hread := (readsSpaces_writeEscaped (head?_onNextLine_ne column next)
      (Nat.succ_pos (indent + 1)) hindent true true true (start + 1) points).readsOn
    exact @comes_quoted _ .double _ _ _ _ _ _ _ _ _ hl hstart hnext (by simpa using hread)

theorem writesScalar_doubleText
    {s : String} (hs : styleOf s.toList = .double) {indent : Nat} (hindent : indent + 2 < lineWidth) :
    WritesScalar indent (.text s) [.scalar ⟨.text s, false⟩] := by
  have hdouble := @writesScalar_double (.text s) (pointsOf s.toList) indent trivial
    (fun column => by rw [writeScalar, writeText, hs]) hindent
  rwa [Label.ofPoints_chars, String.ofList_toList] at hdouble

theorem writesScalar_broken (t : BrokenText) {indent : Nat} (hindent : indent + 2 < lineWidth) :
    WritesScalar indent (.brokenText t) [.scalar ⟨.broken t, false⟩] := by
  have hdouble := @writesScalar_double (.brokenText t) (Label.broken t).points indent trivial
    (fun column => rfl) hindent
  rwa [Label.ofPoints_points] at hdouble

/-- A text is written so that its token holds it. -/
theorem writesScalar_text (s : String) {indent : Nat} (hindent : indent + 2 < lineWidth) :
    WritesScalar indent (.text s)
      [.scalar ⟨.text s, decide (styleOf s.toList = .plain)⟩] := by
  cases hs : styleOf s.toList with
  | plain => exact writesScalar_plainText hs indent
  | single => exact writesScalar_singleText hs indent
  | double => exact writesScalar_doubleText hs hindent

end Arranger.Yaml
