import Arranger.Proofs.Yaml.Quoted
import Mathlib.Algebra.Group.Nat.Defs

/-!
# Texts between quotes

A text that is written between quotes is read as it was.  Between single quotes a gap is written as
it is, folded, or with one line end more; between double quotes a line ends behind a backslash only,
and every other character that needs it has an escape.
-/

namespace Arranger.Yaml

variable {s rest : List Char} {text : List CodePoint}

/-! ## Gaps -/

/-- A text that does not begin with something that belongs to a gap. -/
def EndsBlank (s : List Char) : Prop :=
  ∃ c rest, s = c :: rest ∧ c ≠ ' ' ∧ c ≠ '\t' ∧ isBreak c = false

theorem EndsBlank.lineBreak (hs : EndsBlank s) (k : Mark) :
    (⟨s, k⟩ : Cursor).lineBreak = none := by
  obtain ⟨c, rest, rfl, -, -, hbreak⟩ := hs
  apply Cursor.lineBreak_of_not_isBreak
  intro d hd
  rwa [← Option.some.inj hd]

theorem EndsBlank.span_spaces (hs : EndsBlank s) (n : Nat) (k : Mark) :
    (⟨spaces n ++ s, k⟩ : Cursor).span (fun c => c = ' ' || c = '\t') =
      (spaces n, ⟨s, k.through s (spaces n)⟩) := by
  obtain ⟨c, rest, rfl, hspace, htab, -⟩ := hs
  apply Cursor.span_append_of_all
  · intro d hd
    simp [List.eq_of_mem_replicate hd]
  · intro d hd
    simp [← Option.some.inj hd, hspace, htab]

theorem readsGap_spaces (hs : EndsBlank s) (n : Nat) : ReadsGap (spaces n ++ s) (spaces n) s := by
  intro began k
  refine ⟨k.through s (spaces n), ?_⟩
  have hempty : s.isEmpty = false := by
    obtain ⟨c, rest, rfl, -⟩ := hs
    rfl
  unfold quotedGap
  rw [hs.span_spaces]
  simp [hempty, hs.lineBreak]

theorem quotedBreaks_feeds
    (hs : EndsBlank s) {indent : Nat} (hindent : 0 < indent) {n fuel : Nat} (hfuel : n < fuel)
    (began k : Mark) :
    ∃ mark, quotedBreaks began fuel ⟨List.replicate n '\n' ++ (spaces indent ++ s), k⟩ =
      .ok (List.replicate n '\n', ⟨s, mark⟩) := by
  obtain ⟨indent, rfl⟩ : ∃ i, indent = i + 1 := ⟨indent - 1, by omega⟩
  induction n generalizing fuel k with
  | zero =>
      obtain ⟨fuel, rfl⟩ : ∃ f, fuel = f + 1 := ⟨fuel - 1, by omega⟩
      refine ⟨k.through s (spaces (indent + 1)), ?_⟩
      have hmarker : (⟨spaces (indent + 1) ++ s, k⟩ : Cursor).atDocumentMarker = false :=
        Cursor.atDocumentMarker_of_space _ _
      simp [quotedBreaks, hmarker, Cursor.skip, hs.span_spaces, hs.lineBreak]
  | succ n ih =>
      obtain ⟨fuel, rfl⟩ : ∃ f, fuel = f + 1 := ⟨fuel - 1, by omega⟩
      have hcursor : List.replicate (n + 1) '\n' ++ (spaces (indent + 1) ++ s) =
          '\n' :: (List.replicate n '\n' ++ (spaces (indent + 1) ++ s)) := rfl
      have hfuelRest : n < fuel := by omega
      obtain ⟨mark, hread⟩ := ih hfuelRest
        (k.through (List.replicate n '\n' ++ (spaces (indent + 1) ++ s)) ['\n'])
      refine ⟨mark, ?_⟩
      have hblank : (⟨'\n' :: (List.replicate n '\n' ++ (spaces (indent + 1) ++ s)), k⟩ :
          Cursor).span (fun c => c = ' ' || c = '\t') =
          ([], ⟨'\n' :: (List.replicate n '\n' ++ (spaces (indent + 1) ++ s)), k⟩) := rfl
      rw [hcursor, quotedBreaks]
      simp only [Cursor.atDocumentMarker, Cursor.skip, hblank, Cursor.lineBreak_feed, bind,
        Except.bind, hread]
      rfl

/-- Line ends that are doubled, or one that stands for a space. -/
theorem readsGap_feeds
    (hs : EndsBlank s) {indent : Nat} (hindent : 0 < indent) (n : Nat) :
    ReadsGap ('\n' :: (List.replicate n '\n' ++ (spaces indent ++ s)))
      (foldedBreaks '\n' (List.replicate n '\n')) s := by
  intro began k
  have hlength : n < (List.replicate n '\n' ++ (spaces indent ++ s)).length + 1 := by
    simp only [List.length_append, List.length_replicate]
    omega
  obtain ⟨mark, hread⟩ := quotedBreaks_feeds hs hindent hlength began
    (k.through (List.replicate n '\n' ++ (spaces indent ++ s)) ['\n'])
  refine ⟨mark, ?_⟩
  have hblank : (⟨'\n' :: (List.replicate n '\n' ++ (spaces indent ++ s)), k⟩ :
      Cursor).span (fun c => c = ' ' || c = '\t') =
      ([], ⟨'\n' :: (List.replicate n '\n' ++ (spaces indent ++ s)), k⟩) := rfl
  unfold quotedGap
  rw [hblank]
  simp only [List.isEmpty_cons, Bool.false_eq_true, if_false, Cursor.lineBreak_feed, bind,
    Except.bind, hread]
  rfl

/-- An escaped line end stands for nothing. -/
theorem readsEscape_lineEnd
    (hs : EndsBlank s) {indent : Nat} (hindent : 0 < indent) :
    ReadsEscape ('\n' :: (spaces indent ++ s)) [] s := by
  intro began k
  obtain ⟨mark, hread⟩ := quotedBreaks_feeds hs hindent (n := 0)
    (Nat.zero_lt_succ (spaces indent ++ s).length) began (k.through (spaces indent ++ s) ['\n'])
  refine ⟨mark, ?_⟩
  have hnamed : namedEscape? '\n' = none := by decide
  have hwidth : escapeWidth? '\n' = none := by decide
  have hpeek : (⟨'\n' :: (spaces indent ++ s), k⟩ : Cursor).peek = '\n' := rfl
  unfold escapeSequence
  rw [hpeek]
  simp only [hnamed, hwidth, Cursor.lineBreak_feed]
  simp only [List.replicate_zero, List.nil_append] at hread
  rw [hread]
  rfl

/-! ## Single quotes -/

theorem ReadsOn.doubleQuotes
    (h : ReadsOn .single s text rest) {run : List Char}
    (hrun : ∀ c ∈ run, isPlainAscii c = true ∧ c ≠ ' ') :
    ReadsOn .single (doubleQuotes run ++ s) (pointsOf run ++ text) rest := by
  induction run with
  | nil => exact h
  | cons c run ih =>
      have htail := ih fun d hd => hrun d (by simp [hd])
      obtain ⟨hascii, hspace⟩ := hrun c (by simp)
      by_cases hquote : c = '\''
      · subst hquote
        exact htail.apostrophe
      · have hwritten : Yaml.doubleQuotes (c :: run) ++ s = c :: (Yaml.doubleQuotes run ++ s) := by
          simp [Yaml.doubleQuotes, hquote]
        rw [hwritten]
        by_cases hliteral : c = '"' ∨ c = '\\'
        · exact htail.literal hliteral
        · obtain ⟨hdouble, hslash⟩ := not_or.1 hliteral
          apply htail.ordinary
          simp [isQuotedWordEnd, hquote, hdouble, hslash, isGap_of_isPlainAscii hascii hspace]

theorem hasNeighbours_append {a b : Char} {xs ys : List Char}
    (h : hasNeighbours a b (xs ++ ys) = false) : hasNeighbours a b ys = false := by
  induction xs with
  | nil => exact h
  | cons x xs ih =>
      apply ih
      cases hrest : xs ++ ys with
      | nil => rfl
      | cons y rest =>
          rw [List.cons_append, hrest, hasNeighbours, Bool.or_eq_false_iff] at h
          exact h.2

theorem hasNeighbours_of_ends {a b : Char} {xs ys : List Char}
    (h : hasNeighbours a b (xs ++ ys) = false) (hxs : xs.getLast? = some a) :
    ys.head? ≠ some b := by
  intro hys
  obtain ⟨front, rfl⟩ := List.getLast?_eq_some_iff.1 hxs
  obtain ⟨tail, rfl⟩ := List.head?_eq_some_iff.1 hys
  rw [List.append_assoc] at h
  have hpair := hasNeighbours_append h
  simp [hasNeighbours] at hpair

/-- The form of a text that single quotes can hold. -/
structure IsQuotable (s : List Char) : Prop where
  printable : ∀ c ∈ s, needsEscape c = false
  noSpaceBreak : hasNeighbours ' ' '\n' s = false
  noBreakSpace : hasNeighbours '\n' ' ' s = false

theorem IsQuotable.behind {a b : List Char} (h : IsQuotable (a ++ b)) : IsQuotable b :=
  ⟨fun c hc => h.printable c (by simp [hc]), hasNeighbours_append h.noSpaceBreak,
    hasNeighbours_append h.noBreakSpace⟩

theorem isPlainAscii_of_printable {c : Char} (hc : needsEscape c = false) (hbreak : c ≠ '\n') :
    isPlainAscii c = true := by
  simpa [needsEscape, hbreak] using hc

/-- A word or the end follows a gap. -/
theorem word_behind_gap
    {kind : RunKind} {run : List Char} {rs : List (RunKind × List Char)}
    (hrs : AreRuns ((kind, run) :: rs)) (hgap : kind ≠ .word)
    (hquotable : IsQuotable (run ++ joined rs)) : ∀ next ∈ rs.head?, next.1 = .word := by
  obtain ⟨hne, hall, hnext, hrest⟩ := hrs
  intro next hhead
  obtain ⟨more, rfl⟩ : ∃ more, rs = next :: more := List.head?_eq_some_iff.1 hhead
  obtain ⟨nextKind, nextRun⟩ := next
  obtain ⟨hnextNe, hnextAll, -, -⟩ := hrest
  obtain ⟨c, nextRun, rfl⟩ := List.exists_cons_of_ne_nil hnextNe
  have hc := hnextAll c (by simp)
  have hlast := hall _ (List.getLast_mem hne)
  have hends : run.getLast? = some (run.getLast hne) := List.getLast?_eq_some_getLast hne
  have hbegins : (joined ((nextKind, c :: nextRun) :: more)).head? = some c := by simp [joined]
  have hkinds : nextKind ≠ kind := hnext _ rfl
  cases kind with
  | word => exact absurd rfl hgap
  | spaces =>
      have hspace := (RunKind.of_eq_spaces_iff _).1 hlast
      rw [hspace] at hends
      have hbreak := hasNeighbours_of_ends hquotable.noSpaceBreak hends
      rw [hbegins] at hbreak
      cases nextKind with
      | word => rfl
      | spaces => exact absurd rfl hkinds
      | breaks => exact absurd (congrArg some ((RunKind.of_eq_breaks_iff c).1 hc)) hbreak
  | breaks =>
      have hbreak := (RunKind.of_eq_breaks_iff _).1 hlast
      rw [hbreak] at hends
      have hspace := hasNeighbours_of_ends hquotable.noBreakSpace hends
      rw [hbegins] at hspace
      cases nextKind with
      | word => rfl
      | spaces => exact absurd (congrArg some ((RunKind.of_eq_spaces_iff c).1 hc)) hspace
      | breaks => exact absurd rfl hkinds

theorem EndsBlank.of_printable
    {c : Char} (hc : needsEscape c = false) (hword : RunKind.of c = .word) (rest : List Char) :
    EndsBlank (c :: rest) := by
  obtain ⟨hspace, hbreak⟩ := (RunKind.of_eq_word_iff c).1 hword
  have hascii := isPlainAscii_of_printable hc hbreak
  refine ⟨c, rest, rfl, hspace, ?_, (isInline_of_isPlainAscii hascii).1⟩
  rintro rfl
  exact absurd hascii (by decide)

/-- What is written from a word or from the end on does not belong to the gap in front. -/
theorem endsBlank_writeRuns
    {rs : List (RunKind × List Char)} (hrs : AreRuns rs) (hhead : ∀ next ∈ rs.head?, next.1 = .word)
    (hquotable : IsQuotable (joined rs)) (mayFold : Bool) (indent column : Nat) (rest : List Char) :
    EndsBlank (writeRuns mayFold doubleQuotes indent false column rs ++ '\'' :: rest) := by
  cases rs with
  | nil => exact ⟨'\'', rest, rfl, by decide, by decide, by decide⟩
  | cons first more =>
      obtain ⟨kind, run⟩ := first
      obtain ⟨hne, hall, -, -⟩ := hrs
      obtain rfl : kind = .word := hhead _ rfl
      obtain ⟨c, run, rfl⟩ := List.exists_cons_of_ne_nil hne
      have hc := hall c (by simp)
      have hprintable := hquotable.printable c (by simp [joined])
      by_cases hquote : c = '\''
      · subst hquote
        exact ⟨'\'', _, rfl, by decide, by decide, by decide⟩
      · have hwritten : ∃ tail, writeRuns mayFold doubleQuotes indent false column
            ((.word, c :: run) :: more) ++ '\'' :: rest = c :: tail := by
          simp [writeRuns, doubleQuotes, hquote]
        obtain ⟨tail, hwritten⟩ := hwritten
        rw [hwritten]
        exact .of_printable hprintable hc tail

section Runs

variable {run : List Char} {rs : List (RunKind × List Char)} {mayFold : Bool} {indent : Nat}

/-- A run of spaces is read as it is, or as one space from a folded line. -/
theorem readsOn_spaces
    (hrs : AreRuns ((.spaces, run) :: rs)) (hquotable : IsQuotable (run ++ joined rs))
    (hindent : 0 < indent)
    (hbehind : ∀ column, ReadsOn .single
      (writeRuns mayFold doubleQuotes indent false column rs ++ '\'' :: rest)
      (pointsOf (joined rs)) rest)
    (isFirst : Bool) (column : Nat) :
    ReadsOn .single
      (writeRuns mayFold doubleQuotes indent isFirst column ((.spaces, run) :: rs) ++ '\'' :: rest)
      (pointsOf (run ++ joined rs)) rest := by
  have hends := endsBlank_writeRuns hrs.2.2.2 (word_behind_gap hrs (by simp) hquotable)
    hquotable.behind mayFold indent
  obtain ⟨n, rfl⟩ : ∃ n, run = spaces (n + 1) := by
    refine ⟨run.length - 1, ?_⟩
    rw [Nat.sub_add_cancel (List.length_pos_iff.2 hrs.1)]
    exact eq_spaces_of_kind hrs.2.1
  have hlength : (spaces (n + 1)).length = n + 1 := by simp [spaces]
  rw [writeRuns, hlength]
  split
  · next hfold =>
    have hone : n = 0 := by
      simp only [Bool.and_eq_true, decide_eq_true_eq] at hfold
      omega
    subst hone
    have hgap := readsGap_feeds (hends indent rest) hindent 0
    have hread := (hbehind indent).gap hgap (by decide) (by simp)
    simpa [foldedBreaks, spaces] using hread
  · have hgap := readsGap_spaces (hends (column + (n + 1)) rest) (n + 1)
    rw [List.append_assoc, pointsOf_append]
    exact (hbehind (column + (n + 1))).gap (c := ' ') hgap (by decide) (by simp)

/-- A run of line ends is written with one more. -/
theorem readsOn_breaks
    (hrs : AreRuns ((.breaks, run) :: rs)) (hquotable : IsQuotable (run ++ joined rs))
    (hindent : 0 < indent)
    (hbehind : ∀ column, ReadsOn .single
      (writeRuns mayFold doubleQuotes indent false column rs ++ '\'' :: rest)
      (pointsOf (joined rs)) rest)
    (isFirst : Bool) (column : Nat) :
    ReadsOn .single
      (writeRuns mayFold doubleQuotes indent isFirst column ((.breaks, run) :: rs) ++ '\'' :: rest)
      (pointsOf (run ++ joined rs)) rest := by
  have hends := endsBlank_writeRuns hrs.2.2.2 (word_behind_gap hrs (by simp) hquotable)
    hquotable.behind mayFold indent indent rest
  obtain ⟨n, rfl⟩ : ∃ n, run = List.replicate (n + 1) '\n' := by
    refine ⟨run.length - 1, ?_⟩
    rw [Nat.sub_add_cancel (List.length_pos_iff.2 hrs.1)]
    exact eq_feeds_of_kind hrs.2.1
  have hgap := readsGap_feeds hends hindent (n + 1)
  have hread := (hbehind indent).gap hgap (by decide) (by simp; omega)
  rw [writeRuns]
  simpa [foldedBreaks] using hread

theorem readsOn_writeRuns
    (hrs : AreRuns rs) (hquotable : IsQuotable (joined rs)) (hrest : rest.head? ≠ some '\'')
    (hindent : 0 < indent) (mayFold isFirst : Bool) (column : Nat) :
    ReadsOn .single (writeRuns mayFold doubleQuotes indent isFirst column rs ++ '\'' :: rest)
      (pointsOf (joined rs)) rest := by
  induction rs generalizing isFirst column with
  | nil => exact readsOn_close hrest
  | cons first rs ih =>
      obtain ⟨kind, run⟩ := first
      have hjoined : joined ((kind, run) :: rs) = run ++ joined rs := by simp [joined]
      rw [hjoined] at hquotable ⊢
      have hbehind := ih hrs.2.2.2 hquotable.behind false
      cases kind with
      | word =>
          have hplain : ∀ c ∈ run, isPlainAscii c = true ∧ c ≠ ' ' := by
            intro c hc
            obtain ⟨hspace, hbreak⟩ := (RunKind.of_eq_word_iff c).1 (hrs.2.1 c hc)
            exact ⟨isPlainAscii_of_printable (hquotable.printable c (by simp [hc])) hbreak, hspace⟩
          have hword := (hbehind (column + (doubleQuotes run).length)).doubleQuotes hplain
          rw [writeRuns, List.append_assoc, pointsOf_append]
          exact hword
      | spaces => exact readsOn_spaces hrs hquotable hindent hbehind isFirst column
      | breaks => exact readsOn_breaks hrs hquotable hindent hbehind isFirst column

end Runs

theorem readsOn_writeSingle
    (hs : IsQuotable s) (hrest : rest.head? ≠ some '\'') {indent : Nat} (hindent : 0 < indent)
    (mayFold : Bool) (column : Nat) :
    ReadsOn .single (writeRuns mayFold doubleQuotes indent true column (runs s) ++ '\'' :: rest)
      (pointsOf s) rest := by
  have hjoined := joined_runs s
  have hread := readsOn_writeRuns (areRuns_runs s) (by rwa [hjoined]) hrest hindent mayFold true column
  rwa [hjoined] at hread

/-! ## Double quotes -/

theorem readsEscape_named {c letter : Char} (h : namedEscape? letter = some c) :
    ReadsEscape (letter :: s) [.char c] s := by
  intro began k
  refine ⟨k.after letter (s.headD ending), ?_⟩
  have hpeek : (⟨letter :: s, k⟩ : Cursor).peek = letter := rfl
  unfold escapeSequence
  rw [hpeek]
  simp only [h]
  rfl

theorem hexValue?_hexDigit (n : Nat) : Text.hexValue? (Text.hexDigit .upper n) = some (n % 16) := by
  have hall : ∀ d < 16, Text.hexValue? (Text.hexDigit .upper d) = some d := by decide
  have hdigit : Text.hexDigit .upper n = Text.hexDigit .upper (n % 16) := by
    simp [Text.hexDigit]
  rw [hdigit]
  exact hall _ (Nat.mod_lt _ (by decide))

theorem isSome_hexValue?_of_mem {width n : Nat} {c : Char} (hc : c ∈ Text.hex .upper width n) :
    (Text.hexValue? c).isSome := by
  induction width generalizing n with
  | zero => simp [Text.hex] at hc
  | succ width ih =>
      rcases List.mem_append.1 hc with hc | hc
      · exact ih hc
      · rw [List.mem_singleton.1 hc, hexValue?_hexDigit]
        rfl

theorem ofDigits_hex (width n : Nat) :
    Text.ofDigits 16 ((Text.hex .upper width n).filterMap Text.hexValue?) = n % 16 ^ width := by
  induction width generalizing n with
  | zero => simp [Text.hex, Text.ofDigits, Nat.mod_one]
  | succ width ih =>
      have hprefix := ih (n / 16)
      simp only [Text.ofDigits] at hprefix
      simp only [Text.hex, List.filterMap_append, Text.ofDigits, List.foldl_append, hprefix]
      simp only [List.filterMap_cons, hexValue?_hexDigit, List.filterMap_nil, List.foldl_cons,
        List.foldl_nil]
      rw [Nat.pow_succ', Nat.mod_mul]
      omega

theorem hexCode_hex (began : Mark) (width n : Nat) (s : List Char) (k : Mark) :
    hexCode began width ⟨Text.hex .upper width n ++ s, k⟩ =
      .ok (n % 16 ^ width, ⟨s, k.through s (Text.hex .upper width n)⟩) := by
  have hlength := Text.length_hex .upper width n
  have hdigits : (List.range width).map (⟨Text.hex .upper width n ++ s, k⟩ : Cursor).peekAt =
      Text.hex .upper width n := by
    apply List.ext_getElem
    · simp [hlength]
    · intro i hi hi'
      have hbound : i < (Text.hex .upper width n ++ s).length := by
        rw [List.length_append]
        omega
      simp [Cursor.peekAt, List.getElem?_eq_getElem hbound, List.getElem_append_left hi']
  have hnone : (Text.hex .upper width n).find? (fun c => (Text.hexValue? c).isNone) = none := by
    rw [List.find?_eq_none]
    intro c hc
    have hsome := isSome_hexValue?_of_mem hc
    cases hvalue : Text.hexValue? c with
    | none => simp [hvalue] at hsome
    | some d => simp
  have hadvance := Cursor.advance_append (Text.hex .upper width n) s k
  rw [hlength] at hadvance
  unfold hexCode
  simp only [hdigits, hnone, ofDigits_hex, hadvance]

theorem codePoint_toNat (p : CodePoint) : codePoint p.toNat = .ok p := by
  unfold codePoint
  cases p with
  | char c =>
      have hvalid : c.toNat < 0xD800 ∨ 0xDFFF < c.toNat ∧ c.toNat < 0x110000 := c.valid
      have hcode : (CodePoint.char c).toNat = c.toNat := rfl
      rw [hcode, if_neg (by omega), dif_neg (by omega), Char.ofNat_toNat]
  | surrogate half =>
      have hcode : (CodePoint.surrogate half).toNat = 0xD800 + half.val := rfl
      have hhalf := half.isLt
      rw [if_neg (by omega), dif_pos (by omega)]
      simp [hcode]

theorem readsEscape_hex
    {mark : Char} {p : CodePoint} {n width : Nat} (hp : p.toNat = n)
    (hnamed : namedEscape? mark = none) (hwidth : escapeWidth? mark = some width)
    (hn : n < 16 ^ width) :
    ReadsEscape (mark :: (Text.hex .upper width n ++ s)) [p] s := by
  subst hp
  intro began k
  have hpeek : (⟨mark :: (Text.hex .upper width p.toNat ++ s), k⟩ : Cursor).peek = mark := rfl
  have hcode := hexCode_hex began width p.toNat s
    (k.after mark ((Text.hex .upper width p.toNat ++ s).headD ending))
  rw [Nat.mod_eq_of_lt hn] at hcode
  refine ⟨(k.after mark ((Text.hex .upper width p.toNat ++ s).headD ending)).through s
    (Text.hex .upper width p.toNat), ?_⟩
  unfold escapeSequence
  rw [hpeek]
  simp only [hnamed, hwidth, Cursor.next_cons, hcode, bind, Except.bind, codePoint_toNat]
  rfl

/-- The characters that are escaped by a letter, with their letters. -/
def letterEscapes : List (Char × Char) := [
    ('\x00', '0'), ('\x07', 'a'), ('\x08', 'b'), ('\t', 't'), ('\n', 'n'), ('\x0b', 'v'),
    ('\x0c', 'f'), ('\r', 'r'), ('\x1b', 'e'), ('"', '"'), ('\\', '\\'), ('\x85', 'N'),
    ('\xa0', '_'), ('\u2028', 'L'), ('\u2029', 'P')]

theorem mem_letterEscapes {c letter : Char} (h : escapeLetter? c = some letter) :
    (c, letter) ∈ letterEscapes := by
  obtain ⟨before, after, hsplit, -⟩ := List.lookup_eq_some_iff.1 h
  rw [letterEscapes, hsplit]
  simp

/-- The escape of a character reads as the character. -/
theorem readsEscape_of_doubleEscape? {c : Char} {escape : List Char} (h : doubleEscape? c = some escape) :
    ∃ t, escape = '\\' :: t ∧ ∀ s, ReadsEscape (t ++ s) [.char c] s := by
  unfold doubleEscape? at h
  split at h
  · simp at h
  · split at h
    · next letter hletter =>
      refine ⟨[letter], (Option.some.inj h).symm, fun s => readsEscape_named ?_⟩
      have hall : ∀ entry ∈ letterEscapes, namedEscape? entry.2 = some entry.1 := by decide
      exact hall _ (mem_letterEscapes hletter)
    · have hvalid : c.toNat < 0xD800 ∨ 0xDFFF < c.toNat ∧ c.toNat < 0x110000 := c.valid
      dsimp only at h
      split at h
      · next hsmall =>
        exact ⟨'x' :: Text.hex .upper 2 c.toNat, (Option.some.inj h).symm, fun s =>
          readsEscape_hex rfl (by decide) (by decide) (by omega)⟩
      · split at h
        · next hmiddle =>
          exact ⟨'u' :: Text.hex .upper 4 c.toNat, (Option.some.inj h).symm, fun s =>
            readsEscape_hex rfl (by decide) (by decide) (by omega)⟩
        · exact ⟨'U' :: Text.hex .upper 8 c.toNat, (Option.some.inj h).symm, fun s =>
            readsEscape_hex rfl (by decide) (by decide) (by omega)⟩

theorem isPlainAscii_of_doubleEscape? {c : Char} (h : doubleEscape? c = none) :
    isPlainAscii c = true ∧ c ≠ '"' ∧ c ≠ '\\' := by
  unfold doubleEscape? at h
  split at h
  · next hplain => simpa [and_assoc] using hplain
  · split at h
    · simp at h
    · dsimp only at h
      split at h
      · simp at h
      · split at h <;> simp at h

theorem readsEscape_of_doubleForm {p : CodePoint} {escape : List Char}
    (h : doubleForm p = .inr escape) :
    ∃ t, escape = '\\' :: t ∧ ∀ s, ReadsEscape (t ++ s) [p] s := by
  cases p with
  | char c =>
      cases hescape : doubleEscape? c with
      | none => simp [doubleForm, hescape] at h
      | some found =>
          obtain rfl : found = escape := by simpa [doubleForm, hescape] using h
          exact readsEscape_of_doubleEscape? hescape
  | surrogate half =>
      have hbound : (CodePoint.surrogate half).toNat < 16 ^ 4 := by
        change 0xD800 + half.val < 16 ^ 4
        omega
      exact ⟨'u' :: Text.hex .upper 4 (CodePoint.surrogate half).toNat, (Sum.inr.inj h).symm, fun s =>
        readsEscape_hex rfl (by decide) (by decide) hbound⟩

/-- Only characters without an escape stand for themselves. -/
theorem doubleForm_eq_inl {p : CodePoint} {c : Char} (h : doubleForm p = .inl c) :
    p = .char c ∧ doubleEscape? c = none := by
  cases p with
  | char d =>
      cases hescape : doubleEscape? d with
      | none =>
          obtain rfl : d = c := by simpa [doubleForm, hescape] using h
          exact ⟨rfl, hescape⟩
      | some escape => simp [doubleForm, hescape] at h
  | surrogate half => simp [doubleForm] at h

/-- What is read from a run of spaces on; no line ends behind the spaces. -/
def ReadsSpaces (s : List Char) (text : List CodePoint) (rest : List Char) : Prop :=
  ∃ n behind further, s = spaces n ++ behind ∧ text = pointsOf (spaces n) ++ further ∧
    EndsBlank behind ∧ ReadsOn .double behind further rest

theorem ReadsSpaces.readsOn (h : ReadsSpaces s text rest) : ReadsOn .double s text rest := by
  obtain ⟨n, behind, further, rfl, rfl, hends, hread⟩ := h
  cases n with
  | zero => exact hread
  | succ n =>
      have hgap := readsGap_spaces hends (n + 1)
      exact hread.gap (c := ' ') hgap (by decide) (by simp)

theorem ReadsSpaces.space (h : ReadsSpaces s text rest) :
    ReadsSpaces (' ' :: s) (.char ' ' :: text) rest := by
  obtain ⟨n, behind, further, rfl, rfl, hends, hread⟩ := h
  exact ⟨n + 1, behind, further, rfl, rfl, hends, hread⟩

theorem ReadsOn.readsSpaces (h : ReadsOn .double s text rest) (hs : EndsBlank s) :
    ReadsSpaces s text rest := ⟨0, s, text, rfl, rfl, hs, h⟩

theorem endsBlank_slash (s : List Char) : EndsBlank ('\\' :: s) :=
  ⟨'\\', s, rfl, by decide, by decide, by decide⟩

theorem ReadsOn.character
    (h : ReadsOn .double s text rest) {c : Char} (hc : doubleEscape? c = none) (hspace : c ≠ ' ') :
    ReadsSpaces (c :: s) (.char c :: text) rest := by
  obtain ⟨hascii, hquote, hslash⟩ := isPlainAscii_of_doubleEscape? hc
  have hends : EndsBlank (c :: s) := by
    refine ⟨c, s, rfl, hspace, ?_, (isInline_of_isPlainAscii hascii).1⟩
    rintro rfl
    exact absurd hascii (by decide)
  apply ReadsOn.readsSpaces _ hends
  by_cases hapostrophe : c = '\''
  · subst hapostrophe
    exact h.plainApostrophe
  · apply h.ordinary
    simp [isQuotedWordEnd, hapostrophe, hquote, hslash, isGap_of_isPlainAscii hascii hspace]

theorem ReadsSpaces.of_space (h : ReadsSpaces (' ' :: s) (.char ' ' :: text) rest) :
    ReadsSpaces s text rest := by
  obtain ⟨n, behind, further, hs, htext, hends, hread⟩ := h
  cases n with
  | zero =>
      obtain ⟨d, tail, rfl, hd, -, -⟩ := hends
      exact absurd (List.cons.inj hs).1.symm hd
  | succ n => exact ⟨n, behind, further, (List.cons.inj hs).2, (List.cons.inj htext).2, hends, hread⟩

theorem ReadsSpaces.endsBlank
    {p : CodePoint} (h : ReadsSpaces s (p :: text) rest) (hp : p ≠ .char ' ') : EndsBlank s := by
  obtain ⟨n, behind, further, rfl, htext, hends, hread⟩ := h
  cases n with
  | zero => exact hends
  | succ n => exact absurd (List.cons.inj htext).1 hp

/-- An escaped line end in front of what is written for a code point and what follows it. -/
theorem ReadsSpaces.lineEnd
    {p : CodePoint} {indent : Nat} (h : ReadsSpaces s (p :: text) rest) (hindent : 0 < indent)
    (hspace : p = .char ' ' → s.head? = some ' ') :
    ReadsOn .double (escapedLineEnd indent (some p) ++ s) (p :: text) rest := by
  by_cases hp : p = .char ' '
  · subst hp
    obtain ⟨s, rfl⟩ := List.head?_eq_some_iff.1 (hspace rfl)
    have hnamed : ReadsEscape (' ' :: s) [.char ' '] s := readsEscape_named (by decide)
    have hread := h.of_space.readsOn.escape hnamed (Nat.le_succ _)
    have hescape := readsEscape_lineEnd (endsBlank_slash (' ' :: s)) hindent
    have hline := hread.escape hescape (by simp; omega)
    simpa [escapedLineEnd] using hline
  · have hescape := readsEscape_lineEnd (h.endsBlank hp) hindent
    have hline := h.readsOn.escape hescape (by simp; omega)
    simpa [escapedLineEnd, hp] using hline

theorem writeEscaped_space {points : List CodePoint}
    {indent column : Nat} (hcolumn : column ≤ lineWidth) (mayFold isFirst isFresh : Bool) :
    (writeEscaped mayFold indent isFirst isFresh column (.char ' ' :: points)).head? = some ' ' := by
  have hform : doubleForm (.char ' ') = .inl ' ' := by decide
  have hshort : ¬lineWidth < column := Nat.not_lt.2 hcolumn
  simp [writeEscaped, hform, hshort]

theorem readsSpaces_writeEscaped
    (hrest : rest.head? ≠ some '\'') {indent : Nat} (hindent : 0 < indent)
    (hwidth : indent < lineWidth) (mayFold isFirst isFresh : Bool) (column : Nat)
    (points : List CodePoint) :
    ReadsSpaces (writeEscaped mayFold indent isFirst isFresh column points ++ '"' :: rest) points
      rest := by
  induction points generalizing isFirst isFresh column with
  | nil => exact (readsOn_close hrest).readsSpaces ⟨'"', rest, rfl, by decide, by decide, by decide⟩
  | cons p points ih =>
      rw [writeEscaped]
      split
      · next escape hform =>
        obtain ⟨t, rfl, hread⟩ := readsEscape_of_doubleForm hform
        dsimp only
        split
        · next hfold =>
          -- the line may end behind the escape, as something follows it
          obtain ⟨q, points, rfl⟩ : ∃ q tail, points = q :: tail := by
            cases points with
            | nil => simp at hfold
            | cons q points => exact ⟨q, points, rfl⟩
          have hline := (ih false true (columnBehind indent (some q))).lineEnd hindent <| by
            rintro rfl
            have hhead := @writeEscaped_space points indent (indent + 1)
              (Nat.succ_le_of_lt hwidth) mayFold false true
            rw [List.head?_append]
            simp [columnBehind, hhead]
          have hescaped := hline.escape (hread _) (by simp)
          have hends := hescaped.readsSpaces (endsBlank_slash _)
          simpa using hends
        · have hescaped := (ih false true (column + ('\\' :: t).length)).readsOn.escape (hread _)
            (by simp)
          have hends := hescaped.readsSpaces (endsBlank_slash _)
          simpa using hends
      · next c hform =>
        obtain ⟨rfl, hescape⟩ := doubleForm_eq_inl hform
        have hcharacter : ∀ column, ReadsSpaces
            (c :: writeEscaped mayFold indent false false column points ++ '"' :: rest)
            (.char c :: points) rest := by
          intro column
          by_cases hc : c = ' '
          · subst hc
            exact (ih false false column).space
          · exact (ih false false column).readsOn.character hescape hc
        split
        · have hline := (hcharacter (columnBehind indent (some (.char c)) + 1)).lineEnd hindent
            fun hc => by simp [CodePoint.char.inj hc]
          have hends := hline.readsSpaces (endsBlank_slash _)
          simpa using hends
        · exact hcharacter (column + 1)

end Arranger.Yaml
