import Arranger.Proofs.Yaml.Cursor
import Arranger.Proofs.Yaml.Lexing
import Arranger.Proofs.Yaml.Runs

/-!
# Plain scalars

A text that is written plainly is read as it was, on whatever lines it was folded.  It is read word
by word: a word ends at a gap, and a gap of one line end stands for one space.
-/

namespace Arranger.Yaml

open Lexer (StartsToken)

/-! ## Words -/

theorem isGap_of_isPlainAscii {c : Char} (hc : isPlainAscii c = true) (hspace : c ≠ ' ') :
    isGap c = false := by
  have hrange : 32 ≤ c.toNat ∧ c.toNat ≤ 126 := by
    simpa [isPlainAscii, Char.le_def, UInt32.le_iff_toNat_le] using hc
  have htab : c ≠ '\t' := by
    rintro rfl
    exact absurd hrange.1 (by decide)
  have hnull : c ≠ ending := by
    rintro rfl
    exact absurd hrange.1 (by decide)
  have hbreak := (isInline_of_isPlainAscii hc).1
  simp [isGap, endsWord, endsLine, htab, hspace, hnull, hbreak]

/-- The length of a word without gaps, in front of something that ends a plain scalar's piece. -/
theorem plainLength_append
    {w rest : List Char} (hw : ∀ c ∈ w, isGap c = false) (hcolon : w.getLast? ≠ some ':')
    (hrest : plainLength false rest = 0) : plainLength false (w ++ rest) = w.length := by
  induction w with
  | nil => exact hrest
  | cons c w ih =>
      have hc : isGap c = false := hw c (by simp)
      have htail : plainLength false (w ++ rest) = w.length := by
        apply ih (fun d hd => hw d (by simp [hd]))
        intro hlast
        cases w with
        | nil => simp at hlast
        | cons d w => exact hcolon (by simpa using hlast)
      have hnext : (c = ':' && isGap ((w ++ rest).headD ending)) = false := by
        by_cases heq : c = ':'
        · cases w with
          | nil => simp [heq] at hcolon
          | cons d w =>
              have hd : isGap d = false := hw d (by simp)
              simp [hd]
        · simp [heq]
      simp only [List.cons_append, plainLength, hc, hnext, Bool.false_and, Bool.or_false,
        Bool.false_eq_true, if_false, htail, List.length_cons]

theorem plainLength_of_gap {c : Char} (hc : isGap c = true) (rest : List Char) :
    plainLength false (c :: rest) = 0 := by
  simp [plainLength, hc]

/-! ## Gaps -/

theorem atDocumentMarker_eq_false {s : List Char} (hs : startsDocumentMarker s = false) (k : Mark) :
    (⟨s, k⟩ : Cursor).atDocumentMarker = false := by
  unfold Cursor.atDocumentMarker
  split
  · next rest heq =>
    change s = _ at heq
    rw [heq] at hs
    simp [startsDocumentMarker] at hs
  · next rest heq =>
    change s = _ at heq
    rw [heq] at hs
    simp [startsDocumentMarker] at hs
  · rfl

theorem plainBreaks_spaces
    {rest : List Char} (hspace : rest.head? ≠ some ' ')
    (hbreak : ∀ c, rest.head? = some c → isBreak c = false) (n fuel : Nat) (k : Mark) :
    plainBreaks (n + fuel) ⟨spaces n ++ rest, k⟩ =
      (some [], ⟨rest, k.through rest (spaces n)⟩) := by
  induction n generalizing k with
  | zero =>
      cases fuel with
      | zero => rfl
      | succ fuel =>
          have hpeek : (⟨rest, k⟩ : Cursor).peek ≠ ' ' := by
            cases rest with
            | nil =>
                change ending ≠ ' '
                decide
            | cons c rest =>
                rintro rfl
                exact hspace rfl
          have hline := Cursor.lineBreak_of_not_isBreak hbreak k
          simp [plainBreaks, spaces, hpeek, hline, Mark.through]
  | succ n ih =>
      have hfuel : n + 1 + fuel = n + fuel + 1 := by omega
      rw [hfuel, plainBreaks]
      change (if ' ' = ' ' then _ else _) = _
      rw [if_pos rfl]
      exact ih _

theorem plainGap_spaces
    {rest : List Char} (hspace : rest.head? ≠ some ' ')
    (hbreak : ∀ c, rest.head? = some c → isBreak c = false) (n : Nat) (k : Mark) :
    plainGap ⟨spaces n ++ rest, k⟩ = ⟨spaces n, false, ⟨rest, k.through rest (spaces n)⟩⟩ := by
  unfold plainGap
  rw [Cursor.span_spaces hspace]
  simp only [Cursor.lineBreak_of_not_isBreak hbreak]

/-- A line end with the indentation behind it stands for a space. -/
theorem plainGap_feed
    {rest : List Char} {n : Nat} (hspace : rest.head? ≠ some ' ')
    (hbreak : ∀ c, rest.head? = some c → isBreak c = false)
    (hmarker : startsDocumentMarker (spaces n ++ rest) = false) (k : Mark) :
    plainGap ⟨'\n' :: spaces n ++ rest, k⟩ =
      ⟨[' '], true, ⟨rest, k.through rest ('\n' :: spaces n)⟩⟩ := by
  have hspan : (⟨'\n' :: spaces n ++ rest, k⟩ : Cursor).span (· = ' ') =
      ([], ⟨'\n' :: spaces n ++ rest, k⟩) :=
    Cursor.span_spaces (by simp) 0 k
  have hlength : (spaces n ++ rest).length = n + rest.length := by simp [spaces]
  have hmark : k.through rest ('\n' :: spaces n) =
      (k.through (spaces n ++ rest) ['\n']).through rest (spaces n) :=
    Mark.through_append k rest ['\n'] (spaces n)
  unfold plainGap
  rw [hspan]
  simp only [List.cons_append, Cursor.lineBreak_feed]
  rw [if_neg (by simp [atDocumentMarker_eq_false hmarker]), hlength,
    plainBreaks_spaces hspace hbreak]
  simp [foldedBreaks, hmark]

/-! ## Pieces -/

/-- A word that a plain scalar may hold. -/
structure IsPlainWord (w : List Char) : Prop where
  ne_nil : w ≠ []
  ascii : ∀ c ∈ w, isPlainAscii c = true
  noSpace : ∀ c ∈ w, c ≠ ' '
  noColon : w.getLast? ≠ some ':'
  noHash : w.head? ≠ some '#'

theorem IsPlainWord.isGap {w : List Char} (hw : IsPlainWord w) : ∀ c ∈ w, isGap c = false :=
  fun c hc => isGap_of_isPlainAscii (hw.ascii c hc) (hw.noSpace c hc)

/-- The runs of a plain text: words with spaces between them. -/
inductive PlainRuns : List (RunKind × List Char) → Prop
  | last {w : List Char} (hw : IsPlainWord w) : PlainRuns [(.word, w)]
  | more {w : List Char} {n : Nat} {rest : List (RunKind × List Char)} (hw : IsPlainWord w)
      (hrest : PlainRuns rest) : PlainRuns ((.word, w) :: (.spaces, spaces (n + 1)) :: rest)

theorem PlainRuns.head
    {rs : List (RunKind × List Char)} (hrs : PlainRuns rs) :
    ∃ w rest, rs = (.word, w) :: rest ∧ IsPlainWord w := by
  cases hrs with
  | last hw => exact ⟨_, _, rfl, hw⟩
  | more hw hrest => exact ⟨_, _, rfl, hw⟩

section Pieces

variable {w rest gap : List Char} {indent fuel : Nat} {before : PlainScalar} {k : Mark}
  {between : PlainGap}

theorem plainPieces_word
    (hw : IsPlainWord w) (hrest : plainLength false rest = 0)
    (hcursor : before.cursor = ⟨w ++ rest, k⟩)
    (hgap : plainGap ⟨rest, k.through rest w⟩ = between) :
    plainPieces false indent (fuel + 1) gap before =
      let here : PlainScalar := ⟨[], k.through rest w, between.hasBreak, between.cursor⟩
      let further := if between.text.isEmpty || between.cursor.peek = '#' ||
          between.cursor.column < indent then here
        else plainPieces false indent fuel between.text here
      { further with text := gap ++ w ++ further.text } := by
  have hsize : plainLength false (w ++ rest) = w.length :=
    plainLength_append hw.isGap hw.noColon hrest
  have hlength : w.length ≠ 0 := by
    rw [Ne, List.length_eq_zero_iff]
    exact hw.ne_nil
  have hpeek : (⟨w ++ rest, k⟩ : Cursor).peek ≠ '#' := by
    cases w with
    | nil => exact absurd rfl hw.ne_nil
    | cons c w =>
        rintro rfl
        exact hw.noHash rfl
  rw [plainPieces, hcursor]
  simp only [hsize, hpeek, hlength, decide_false, Bool.or_false, Bool.false_eq_true, if_false,
    Cursor.advance_append, hgap, Bool.not_false, Bool.true_and, List.take_left']

/-- Behind the last word the next line is not indented enough. -/
theorem plainPieces_last
    (hw : IsPlainWord w) (hrest : plainLength false rest = 0)
    (hcursor : before.cursor = ⟨w ++ rest, k⟩)
    (hgap : plainGap ⟨rest, k.through rest w⟩ = between) (hstop : between.cursor.column < indent) :
    plainPieces false indent (fuel + 1) gap before =
      ⟨gap ++ w, k.through rest w, between.hasBreak, between.cursor⟩ := by
  rw [plainPieces_word hw hrest hcursor hgap]
  simp [hstop]

theorem plainPieces_more
    (hw : IsPlainWord w) (hrest : plainLength false rest = 0)
    (hcursor : before.cursor = ⟨w ++ rest, k⟩)
    (hgap : plainGap ⟨rest, k.through rest w⟩ = between) (htext : between.text ≠ [])
    (hpeek : between.cursor.peek ≠ '#') (hcolumn : indent ≤ between.cursor.column)
    {further : PlainScalar}
    (hfurther : plainPieces false indent fuel between.text
      ⟨[], k.through rest w, between.hasBreak, between.cursor⟩ = further) :
    plainPieces false indent (fuel + 1) gap before =
      { further with text := gap ++ w ++ further.text } := by
  rw [plainPieces_word hw hrest hcursor hgap]
  simp [htext, hpeek, Nat.not_lt.2 hcolumn, hfurther]

end Pieces

/-- A text that goes on with a word. -/
structure StartsWord (s : List Char) : Prop where
  noSpace : s.head? ≠ some ' '
  noHash : s.head? ≠ some '#'
  noBreak : ∀ c, s.head? = some c → isBreak c = false

theorem StartsWord.peek_ne {s : List Char} (hs : StartsWord s) (k : Mark) :
    (⟨s, k⟩ : Cursor).peek ≠ '#' := by
  cases s with
  | nil =>
      change ending ≠ '#'
      decide
  | cons c s =>
      rintro rfl
      exact hs.noHash rfl

theorem IsPlainWord.startsWord {w : List Char} (hw : IsPlainWord w) (rest : List Char) :
    StartsWord (w ++ rest) := by
  obtain ⟨c, w, rfl⟩ := List.exists_cons_of_ne_nil hw.ne_nil
  refine ⟨?_, hw.noHash, ?_⟩
  · intro hspace
    exact hw.noSpace c (by simp) (Option.some.inj hspace)
  · intro d hd
    have heq : c = d := Option.some.inj hd
    exact heq ▸ (isInline_of_isPlainAscii (hw.ascii c (by simp))).1

theorem PlainRuns.startsWord
    {rs : List (RunKind × List Char)} (hrs : PlainRuns rs) (mayFold : Bool) (indent : Nat)
    (isFirst : Bool) (column : Nat) (rest : List Char) :
    StartsWord (writeRuns mayFold id indent isFirst column rs ++ rest) := by
  obtain ⟨w, more, rfl, hw⟩ := hrs.head
  simp only [writeRuns, id, List.append_assoc]
  exact hw.startsWord _

/-! ## Written gaps -/

theorem startsDocumentMarker_spaces {n : Nat} (hn : 0 < n) (s : List Char) :
    startsDocumentMarker (spaces n ++ s) = false := by
  obtain ⟨n, rfl⟩ : ∃ k, n = k + 1 := ⟨n - 1, by omega⟩
  rfl

/-- A gap in the writing of a plain scalar, in front of its next word: it ends the word before it,
it is read as a text, and it leaves the reader no further left than the indentation. -/
structure IsWrittenGap (indent : Nat) (text gap : List Char) (hasBreak : Bool) (tail : List Char) :
    Prop where
  ends : plainLength false (gap ++ tail) = 0
  reads : ∀ m : Mark, plainGap ⟨gap ++ tail, m⟩ = ⟨text, hasBreak, ⟨tail, m.through tail gap⟩⟩
  indented : ∀ m : Mark, indent ≤ m.column → indent ≤ (m.through tail gap).column

theorem isWrittenGap_feed
    {indent further : Nat} {tail : List Char} (htail : StartsWord tail) (hpos : 0 < further)
    (hfurther : indent ≤ further) :
    IsWrittenGap indent [' '] ('\n' :: spaces further) true tail where
  ends := plainLength_of_gap (by decide) _
  reads := plainGap_feed htail.noSpace htail.noBreak (startsDocumentMarker_spaces hpos _)
  indented := by
    intro m _
    rw [Mark.through_feed]
    exact hfurther

theorem isWrittenGap_spaces
    {tail : List Char} (htail : StartsWord tail) (indent n : Nat) :
    IsWrittenGap indent (spaces (n + 1)) (spaces (n + 1)) false tail where
  ends := plainLength_of_gap (by decide) _
  reads := plainGap_spaces htail.noSpace htail.noBreak (n + 1)
  indented := by
    intro m hm
    rw [Mark.through_of_inline fun c hc => isInline_of_mem_spaces hc]
    exact Nat.le_trans hm (Nat.le_add_right _ _)

/-- A run of spaces is written as it is, or as a line end if it is one space. -/
theorem exists_isWrittenGap
    {rest : List (RunKind × List Char)} (hrest : PlainRuns rest) {indent further : Nat}
    (hpos : 0 < further) (hfurther : indent ≤ further) (mayFold isFirst : Bool) (start n : Nat)
    (next : List Char) :
    ∃ gap hasBreak begins,
      writeRuns mayFold id further isFirst start ((.spaces, spaces (n + 1)) :: rest) =
        gap ++ writeRuns mayFold id further false begins rest ∧
      IsWrittenGap indent (spaces (n + 1)) gap hasBreak
        (writeRuns mayFold id further false begins rest ++ next) := by
  simp only [writeRuns]
  split
  · next hfold =>
    have hone : n = 0 := by
      simp only [Bool.and_eq_true, decide_eq_true_eq] at hfold
      have hlength := hfold.1.1.1.2
      simp only [spaces, List.length_replicate] at hlength
      omega
    subst hone
    exact ⟨_, true, further, rfl,
      isWrittenGap_feed (hrest.startsWord mayFold further false further next) hpos hfurther⟩
  · exact ⟨_, false, _, rfl, isWrittenGap_spaces (hrest.startsWord mayFold further false _ next) _ _⟩

/-! ## Folded lines -/

/-- What follows a value on the next line: a token or the end, indented less than the value. -/
structure IsNextLine (indent column : Nat) (next : List Char) : Prop where
  starts : StartsToken next
  noMarker : startsDocumentMarker (spaces column ++ next) = false
  lt : column < indent

theorem plainPieces_writeRuns
    {mayFold : Bool} {rs : List (RunKind × List Char)} (hrs : PlainRuns rs)
    {indent further column : Nat} {next : List Char} (hnext : IsNextLine indent column next)
    (hfurther : indent ≤ further) {isFirst : Bool} {start fuel : Nat} {gap : List Char}
    {before : PlainScalar} {k : Mark} (hfuel : rs.length ≤ fuel)
    (hcursor : before.cursor = ⟨writeRuns mayFold id further isFirst start rs ++
      ('\n' :: spaces column ++ next), k⟩)
    (hk : indent ≤ k.column) :
    ∃ stop mark, plainPieces false indent fuel gap before =
      ⟨gap ++ joined rs, stop, true, ⟨next, mark⟩⟩ ∧ mark.column = column := by
  have hpos : 0 < further := Nat.lt_of_lt_of_le (Nat.zero_lt_of_lt hnext.lt) hfurther
  -- the reader goes on from word to word as long as it stands at the indentation or behind it
  induction hrs generalizing isFirst start fuel gap before k with
  | @last w hw =>
      obtain ⟨fuel, rfl⟩ : ∃ f, fuel = f + 1 := ⟨fuel - 1, by simp at hfuel; omega⟩
      simp only [writeRuns, id, List.append_nil] at hcursor
      have hgap := plainGap_feed hnext.starts.head?_ne_space
        (fun c hc => (hnext.starts c hc).2.2.1) hnext.noMarker
        (k.through ('\n' :: spaces column ++ next) w)
      have hcolumn := Mark.through_feed (k.through ('\n' :: spaces column ++ next) w) column next
      have hpieces := @plainPieces_last w _ gap indent fuel before k _ hw
        (plainLength_of_gap (by decide) _) hcursor hgap
        (Nat.lt_of_le_of_lt (Nat.le_of_eq hcolumn) hnext.lt)
      have hjoined : joined [(RunKind.word, w)] = w := by simp [joined]
      rw [hjoined]
      exact ⟨_, _, hpieces, hcolumn⟩
  | @more w n rest hw hrest ih =>
      obtain ⟨fuel, rfl⟩ : ∃ f, fuel = f + 1 := ⟨fuel - 1, by simp at hfuel; omega⟩
      have hfuelRest : rest.length ≤ fuel := by
        simp only [List.length_cons] at hfuel
        omega
      obtain ⟨g, hasBreak, begins, hwritten, hgap⟩ := exists_isWrittenGap hrest hpos hfurther mayFold
        false (start + w.length) n ('\n' :: spaces column ++ next)
      have hstarts := hrest.startsWord mayFold further false begins ('\n' :: spaces column ++ next)
      rw [writeRuns, id, hwritten, List.append_assoc, List.append_assoc] at hcursor
      generalize htail : writeRuns mayFold id further false begins rest ++
        ('\n' :: spaces column ++ next) = tail at hgap hstarts hcursor
      have hafter : indent ≤ (k.through (g ++ tail) w).column := by
        rw [Mark.through_of_inline fun c hc => isInline_of_isPlainAscii (hw.ascii c hc)]
        exact Nat.le_trans hk (Nat.le_add_right _ _)
      have hcolumn := hgap.indented _ hafter
      obtain ⟨stop, mark, hpieces, hmark⟩ :=
        @ih false begins fuel (spaces (n + 1))
          ⟨[], k.through (g ++ tail) w, hasBreak, ⟨tail, (k.through (g ++ tail) w).through tail g⟩⟩ _
          hfuelRest (by rw [htail]) hcolumn
      refine ⟨stop, mark, ?_, hmark⟩
      rw [plainPieces_more hw hgap.ends hcursor (hgap.reads _) (by simp [spaces])
        (hstarts.peek_ne _) hcolumn hpieces]
      simp [joined]

/-! ## Plain texts -/

/-- The conditions under which a text is written plainly, apart from the form of the text. -/
structure IsPlainBody (previous : Char) (s : List Char) : Prop where
  ascii : ∀ c ∈ s, isPlainAscii c = true
  noSpaceEnd : s.getLast? ≠ some ' '
  noIndicator : hasInnerIndicator previous s = false

theorem IsPlainBody.noFeed {previous : Char} {s : List Char} (hs : IsPlainBody previous s) :
    ∀ c ∈ s, c ≠ '\n' := by
  rintro c hc rfl
  exact absurd (hs.ascii _ hc) (by decide)

theorem isPlainWord_of_run
    {previous : Char} {w rest : List Char} (hs : IsPlainBody previous (w ++ rest)) (hne : w ≠ [])
    (hkind : ∀ c ∈ w, RunKind.of c = .word) (hhash : w.head? ≠ some '#')
    (hrest : ∀ c, rest.head? = some c → c = ' ') : IsPlainWord w where
  ne_nil := hne
  ascii := fun c hc => hs.ascii c (by simp [hc])
  noSpace := fun c hc => ((RunKind.of_eq_word_iff c).1 (hkind c hc)).1
  noColon := by
    intro hlast
    obtain ⟨front, hfront⟩ := List.getLast?_eq_some_iff.1 hlast
    have hcolon := hs.noIndicator
    rw [hfront, List.append_assoc] at hcolon
    have hbehind := isSpaceOrBreak_behind_colon hcolon
    cases rest with
    | nil => simp at hbehind
    | cons c rest =>
        rw [hrest c rfl] at hbehind
        simp [isSpaceOrBreak] at hbehind
  noHash := hhash

theorem IsPlainBody.behind
    {previous : Char} {a b : List Char} (hs : IsPlainBody previous (a ++ b)) (ha : a ≠ []) (hb : b ≠ []) :
    IsPlainBody (a.getLast ha) b where
  ascii := fun c hc => hs.ascii c (by simp [hc])
  noSpaceEnd := by
    have hlast := hs.noSpaceEnd
    rwa [List.getLast?_append_of_ne_nil _ hb] at hlast
  noIndicator := hasInnerIndicator_append ha hs.noIndicator

theorem IsPlainBody.startsWord
    {s : List Char} (hs : IsPlainBody ' ' s) (hspace : s.head? ≠ some ' ') : StartsWord s where
  noSpace := hspace
  noHash := by
    intro hhash
    obtain ⟨rest, rfl⟩ := List.head?_eq_some_iff.1 hhash
    have hhashed := hs.noIndicator
    simp [hasInnerIndicator, isSpaceOrBreak] at hhashed
  noBreak := fun c hc => (isInline_of_isPlainAscii (hs.ascii c (List.mem_of_mem_head? hc))).1

theorem IsPlainBody.kind_eq_word
    {previous c : Char} {s : List Char} (hs : IsPlainBody previous s) (hc : c ∈ s)
    (hspace : c ≠ ' ') : RunKind.of c = .word :=
  (RunKind.of_eq_word_iff c).2 ⟨hspace, hs.noFeed c hc⟩

theorem kind_of_head?_joined
    {rs : List (RunKind × List Char)} (hrs : AreRuns rs) {c : Char}
    (hc : (joined rs).head? = some c) : ∃ r ∈ rs.head?, RunKind.of c = r.1 := by
  cases rs with
  | nil => simp [joined] at hc
  | cons r rest =>
      obtain ⟨kind, run⟩ := r
      obtain ⟨hrun, hkind, -⟩ := hrs
      obtain ⟨d, run, rfl⟩ := List.exists_cons_of_ne_nil hrun
      have heq : d = c := by simpa [joined] using hc
      exact ⟨_, rfl, heq ▸ hkind d (by simp)⟩

section Alternation

variable {kind : RunKind} {w gap : List Char} {more rs : List (RunKind × List Char)} {previous : Char}
  {n : Nat}

theorem IsPlainBody.first_word
    (hs : IsPlainBody previous (w ++ joined more)) (hrs : AreRuns ((kind, w) :: more))
    (hstarts : StartsWord (w ++ joined more)) : kind = .word ∧ IsPlainWord w := by
  obtain ⟨hw, hkind, hnextKind, hmore⟩ := hrs
  have hword : kind = .word := by
    obtain ⟨c, w, rfl⟩ := List.exists_cons_of_ne_nil hw
    rw [← hkind c (by simp)]
    refine hs.kind_eq_word (by simp) ?_
    rintro rfl
    exact hstarts.noSpace rfl
  subst hword
  refine ⟨rfl, isPlainWord_of_run hs hw hkind ?_ ?_⟩
  · obtain ⟨c, w, rfl⟩ := List.exists_cons_of_ne_nil hw
    exact hstarts.noHash
  · intro c hc
    obtain ⟨r, hr, hcKind⟩ := kind_of_head?_joined hmore hc
    by_contra hspace
    apply hnextKind r hr
    rw [← hcKind]
    exact hs.kind_eq_word (by simp [List.mem_of_mem_head? hc]) hspace

theorem IsPlainBody.eq_spaces
    (hs : IsPlainBody previous (gap ++ joined more)) (hrs : AreRuns ((kind, gap) :: more))
    (hkind : kind ≠ .word) : kind = .spaces ∧ ∃ n, gap = spaces (n + 1) := by
  obtain ⟨hgap, hgapKind, -⟩ := hrs
  obtain ⟨c, gap, rfl⟩ := List.exists_cons_of_ne_nil hgap
  have hc := hgapKind c (by simp)
  have hspaces : kind = .spaces := by
    rw [← hc, RunKind.of_eq_spaces_iff]
    by_contra hspace
    apply hkind
    rw [← hc]
    exact hs.kind_eq_word (by simp) hspace
  subst hspaces
  exact ⟨rfl, gap.length, eq_spaces_of_kind hgapKind⟩

/-- A plain text goes on behind its spaces, and with a word. -/
theorem IsPlainBody.behind_spaces
    (hs : IsPlainBody previous (spaces (n + 1) ++ joined rs)) (hrs : AreRuns rs)
    (hkind : ∀ next ∈ rs.head?, next.1 ≠ .spaces) :
    rs ≠ [] ∧ IsPlainBody ' ' (joined rs) ∧ StartsWord (joined rs) := by
  have hgap : spaces (n + 1) ≠ [] := by simp [spaces]
  have hlast : (spaces (n + 1)).getLast hgap = ' ' := List.eq_of_mem_replicate (List.getLast_mem hgap)
  have hne : joined rs ≠ [] := by
    intro hnil
    apply hs.noSpaceEnd
    rw [hnil, List.append_nil, List.getLast?_eq_some_getLast hgap, hlast]
  have hbehind := hs.behind hgap hne
  rw [hlast] at hbehind
  refine ⟨?_, hbehind, hbehind.startsWord ?_⟩
  · rintro rfl
    exact hne rfl
  · intro hspace
    obtain ⟨r, hr, hspaceKind⟩ := kind_of_head?_joined hrs hspace
    exact hkind r hr (hspaceKind ▸ (RunKind.of_eq_spaces_iff ' ').2 rfl)

end Alternation

theorem plainRuns_of_areRuns :
    ∀ {rs : List (RunKind × List Char)} {previous : Char}, AreRuns rs →
      IsPlainBody previous (joined rs) → StartsWord (joined rs) → rs ≠ [] → PlainRuns rs
  | [], _, _, _, _, hne => absurd rfl hne
  | [(_, w)], _, hrs, hs, hstarts, _ => by
      obtain ⟨rfl, hword⟩ := hs.first_word hrs hstarts
      exact .last hword
  | (_, w) :: (kind, gap) :: rest, _, hrs, hs, hstarts, _ => by
      obtain ⟨rfl, hword⟩ := hs.first_word hrs hstarts
      obtain ⟨-, -, hgapKind, hgapRuns⟩ := hrs
      have hmore := hs.behind hword.ne_nil (b := joined ((kind, gap) :: rest))
        (by simp [joined, hgapRuns.1])
      obtain ⟨rfl, n, rfl⟩ := hmore.eq_spaces hgapRuns (hgapKind (kind, gap) rfl)
      obtain ⟨hrestNe, hrest, hrestStarts⟩ := hmore.behind_spaces hgapRuns.2.2.2 hgapRuns.2.2.1
      exact .more hword (plainRuns_of_areRuns hgapRuns.2.2.2 hrest hrestStarts hrestNe)

theorem plainScalar_writePlain
    {s : List Char} (hs : IsPlainBody ' ' s) (hspace : s.head? ≠ some ' ') (hne : s ≠ [])
    {indent further column start : Nat} {next : List Char} (hnext : IsNextLine indent column next)
    (hfurther : indent ≤ further) {mayFold : Bool} {k : Mark} (hk : indent ≤ k.column) :
    ∃ stop mark, plainScalar false indent
        ⟨writePlain mayFold start further s ++ ('\n' :: spaces column ++ next), k⟩ =
      ⟨s, stop, true, ⟨next, mark⟩⟩ ∧ mark.column = column := by
  have hjoined := joined_runs s
  have hruns : runs s ≠ [] := by
    intro hnil
    rw [hnil] at hjoined
    exact hne hjoined.symm
  have hplain : PlainRuns (runs s) := by
    have hbody : IsPlainBody ' ' (joined (runs s)) := by rwa [hjoined]
    have hstarts : StartsWord (joined (runs s)) := by
      rw [hjoined]
      exact hs.startsWord hspace
    exact plainRuns_of_areRuns (areRuns_runs s) hbody hstarts hruns
  have hfuel : (runs s).length ≤ (writePlain mayFold start further s ++
      ('\n' :: spaces column ++ next)).length + 1 := by
    have hid : ∀ run : List Char, run ≠ [] → id run ≠ [] := fun run hrun => hrun
    have hwritten := length_le_writeRuns (areRuns_runs s) hid mayFold further true start
    rw [List.length_append]
    unfold writePlain
    omega
  obtain ⟨stop, mark, hpieces, hmark⟩ := @plainPieces_writeRuns mayFold (runs s) hplain indent further
    column next hnext hfurther true start _ []
    ⟨[], k, false, ⟨writePlain mayFold start further s ++ ('\n' :: spaces column ++ next), k⟩⟩ k
    hfuel rfl hk
  refine ⟨stop, mark, ?_, hmark⟩
  rw [hjoined] at hpieces
  exact hpieces

end Arranger.Yaml
