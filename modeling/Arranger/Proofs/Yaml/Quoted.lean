import Arranger.Proofs.Yaml.Plain

/-!
# Quoted scalars

A text between quotes is read as words and the gaps between them.  What is read from the rest of
the text is continued in front by what its next character, escape or gap stands for.
-/

namespace Arranger.Yaml

/-! ## Words between quotes -/

/-- A result with code points in front. -/
def prepended (points : List CodePoint) (x : Except Error (List CodePoint × Cursor)) :
    Except Error (List CodePoint × Cursor) :=
  x.map fun (found, after) => (points ++ found, after)

@[simp]
theorem prepended_ok (points found : List CodePoint) (after : Cursor) :
    prepended points (.ok (found, after)) = .ok (points ++ found, after) := rfl

theorem prepended_append (a b : List CodePoint) (x : Except Error (List CodePoint × Cursor)) :
    prepended (a ++ b) x = prepended a (prepended b x) := by
  cases x with
  | error e => rfl
  | ok result =>
      obtain ⟨found, after⟩ := result
      simp

/-- What follows the first run of ordinary characters of a word. -/
def wordTail (quotes : Quotes) (began : Mark) (fuel : Nat) (k : Cursor) :
    Except Error (List CodePoint × Cursor) :=
  let c := k.peek
  match quotes with
  | .single =>
      if c = '\'' && k.peekAt 1 = '\'' then
        prepended [.char '\''] (quotedWord .single began fuel (k.advance 2))
      else if c = '"' || c = '\\' then prepended [.char c] (quotedWord .single began fuel k.next)
      else .ok ([], k)
  | .double =>
      if c = '\'' then prepended [.char c] (quotedWord .double began fuel k.next)
      else if c = '\\' then do
        let (piece, k) ← escapeSequence began k.next
        prepended piece (quotedWord .double began fuel k)
      else .ok ([], k)

/-- What is continued behind a run and a piece has both in front. -/
theorem continued_eq (run piece : List CodePoint) (x : Except Error (List CodePoint × Cursor)) :
    (do
      let (rest, k) ← x
      return (run ++ piece ++ rest, k)) = prepended run (prepended piece x) := by
  cases x with
  | error e => rfl
  | ok result =>
      obtain ⟨rest, after⟩ := result
      simp [bind, Except.bind, pure, Except.pure]

theorem quotedWord_eq (quotes : Quotes) (began : Mark) (fuel : Nat) (k : Cursor) :
    quotedWord quotes began (fuel + 1) k =
      prepended (pointsOf (k.span fun c => !isQuotedWordEnd c).1)
        (wordTail quotes began fuel (k.span fun c => !isQuotedWordEnd c).2) := by
  unfold quotedWord wordTail
  generalize k.span (fun c => !isQuotedWordEnd c) = result
  obtain ⟨run, k'⟩ := result
  have hend : Except.ok (pointsOf run, k') = prepended (pointsOf run) (.ok ([], k')) := by simp
  cases quotes with
  | single =>
      dsimp only
      split
      · exact continued_eq (pointsOf run) _ _
      · split
        · exact continued_eq (pointsOf run) _ _
        · exact hend
  | double =>
      dsimp only
      split
      · exact continued_eq (pointsOf run) _ _
      · split
        · cases escapeSequence began k'.next with
          | error e => rfl
          | ok escaped => exact continued_eq (pointsOf run) escaped.1 _
        · exact hend

theorem quotedWord_of_end {c : Char} (hc : isQuotedWordEnd c = true) (quotes : Quotes)
    (began : Mark) (fuel : Nat) (s : List Char) (k : Mark) :
    quotedWord quotes began (fuel + 1) ⟨c :: s, k⟩ = wordTail quotes began fuel ⟨c :: s, k⟩ := by
  have hspan : (⟨c :: s, k⟩ : Cursor).span (fun c => !isQuotedWordEnd c) = ([], ⟨c :: s, k⟩) := by
    simp [Cursor.span, Cursor.spanFrom, hc]
  rw [quotedWord_eq, hspan]
  cases wordTail quotes began fuel ⟨c :: s, k⟩ <;> rfl

theorem quotedWord_ordinary {c : Char} (hc : isQuotedWordEnd c = false) (quotes : Quotes)
    (began : Mark) (fuel : Nat) (s : List Char) (k : Mark) :
    quotedWord quotes began (fuel + 1) ⟨c :: s, k⟩ =
      prepended [.char c]
        (quotedWord quotes began (fuel + 1) ⟨s, k.after c (s.headD ending)⟩) := by
  have hspan : (⟨c :: s, k⟩ : Cursor).span (fun c => !isQuotedWordEnd c) =
      (c :: ((⟨s, k.after c (s.headD ending)⟩ : Cursor).span fun c => !isQuotedWordEnd c).1,
        ((⟨s, k.after c (s.headD ending)⟩ : Cursor).span fun c => !isQuotedWordEnd c).2) := by
    simp [Cursor.span, Cursor.spanFrom, hc]
  rw [quotedWord_eq, quotedWord_eq, hspan, ← prepended_append]
  rfl

/-! ## What is read -/

variable {quotes : Quotes} {s t u rest : List Char} {text : List CodePoint}

/-- A word is read as code points, and `rest` follows it. -/
def ReadsWord (quotes : Quotes) (s : List Char) (text : List CodePoint) (rest : List Char) : Prop :=
  ∀ began fuel k, s.length < fuel →
    ∃ mark, quotedWord quotes began fuel ⟨s, k⟩ = .ok (text, ⟨rest, mark⟩)

/-- The rest of a quoted scalar behind a word is read as code points, with its closing quote. -/
def ReadsRest (quotes : Quotes) (s : List Char) (text : List CodePoint) (rest : List Char) : Prop :=
  ∀ began fuel k, s.length < fuel →
    ∃ mark, quotedRest quotes began fuel ⟨s, k⟩ = .ok (text, ⟨rest, mark⟩)

/-- From inside a word on a quoted scalar is read as code points. -/
def ReadsOn (quotes : Quotes) (s : List Char) (text : List CodePoint) (rest : List Char) : Prop :=
  ∃ word more behind, text = word ++ more ∧ ReadsWord quotes s word behind ∧
    ReadsRest quotes behind more rest ∧ behind.length ≤ s.length

/-- The text of a gap between two words. -/
def ReadsGap (s gap rest : List Char) : Prop :=
  ∀ began k, ∃ mark, quotedGap began ⟨s, k⟩ = .ok (gap, ⟨rest, mark⟩)

/-- Something at which a word ends. -/
def EndsQuotedWord (quotes : Quotes) (s : List Char) : Prop :=
  ∃ c rest, s = c :: rest ∧ isQuotedWordEnd c = true ∧ c ≠ '\\' ∧
    match quotes with
    | .single => c ≠ '"' ∧ (c = '\'' → rest.head? ≠ some '\'')
    | .double => c ≠ '\''

theorem readsWord_nil (hs : EndsQuotedWord quotes s) : ReadsWord quotes s [] s := by
  intro began fuel k hfuel
  obtain ⟨c, rest, rfl, hend, hslash, hquotes⟩ := hs
  obtain ⟨fuel, rfl⟩ : ∃ n, fuel = n + 1 := ⟨fuel - 1, by omega⟩
  refine ⟨k, ?_⟩
  rw [quotedWord_of_end hend]
  cases quotes with
  | single =>
      obtain ⟨hdouble, hapostrophe⟩ := hquotes
      have hnext : c = '\'' → (⟨c :: rest, k⟩ : Cursor).peekAt 1 ≠ '\'' := by
        intro hc
        have hhead := hapostrophe hc
        cases rest with
        | nil =>
            change ending ≠ '\''
            decide
        | cons d rest => simpa [Cursor.peekAt] using hhead
      have hfirst : (c = '\'' && (⟨c :: rest, k⟩ : Cursor).peekAt 1 = '\'') = false := by
        by_cases hc : c = '\''
        · simp [hnext hc]
        · simp [hc]
      change (if (c = '\'' && (⟨c :: rest, k⟩ : Cursor).peekAt 1 = '\'') = true then _ else _) = _
      rw [hfirst]
      simp [Cursor.peek, hdouble, hslash]
  | double =>
      change (if c = '\'' then _ else _) = _
      rw [if_neg hquotes]
      simp [Cursor.peek, hslash]

theorem ReadsOn.of_rest (hs : EndsQuotedWord quotes s) (hrest : ReadsRest quotes s text rest) :
    ReadsOn quotes s text rest :=
  ⟨[], text, s, rfl, readsWord_nil hs, hrest, Nat.le_refl _⟩

theorem readsOn_close (hrest : rest.head? ≠ some '\'') :
    ReadsOn quotes (quotes.mark :: rest) [] rest := by
  apply ReadsOn.of_rest
  · refine ⟨quotes.mark, rest, rfl, ?_⟩
    cases quotes with
    | single => exact ⟨by decide, by decide, by decide, fun _ => hrest⟩
    | double =>
        have hne : Quotes.double.mark ≠ '\'' := by decide
        exact ⟨by decide, by decide, hne⟩
  · intro began fuel k hfuel
    obtain ⟨fuel, rfl⟩ : ∃ n, fuel = n + 1 := ⟨fuel - 1, by omega⟩
    refine ⟨k.after quotes.mark (rest.headD ending), ?_⟩
    change (if quotes.mark = quotes.mark then _ else _) = _
    rw [if_pos rfl]
    rfl

theorem ReadsOn.ordinary
    (h : ReadsOn quotes s text rest) {c : Char} (hc : isQuotedWordEnd c = false) :
    ReadsOn quotes (c :: s) (.char c :: text) rest := by
  obtain ⟨word, more, behind, rfl, hword, hmore, hlength⟩ := h
  refine ⟨.char c :: word, more, behind, rfl, ?_, hmore, Nat.le_succ_of_le hlength⟩
  intro began fuel k hfuel
  obtain ⟨fuel, rfl⟩ : ∃ n, fuel = n + 1 := ⟨fuel - 1, by omega⟩
  rw [List.length_cons] at hfuel
  obtain ⟨mark, hread⟩ := hword began (fuel + 1) (k.after c (s.headD ending)) (by omega)
  refine ⟨mark, ?_⟩
  rw [quotedWord_ordinary hc, hread]
  rfl

/-- An apostrophe between single quotes is doubled. -/
theorem ReadsOn.apostrophe (h : ReadsOn .single s text rest) :
    ReadsOn .single ('\'' :: '\'' :: s) (.char '\'' :: text) rest := by
  obtain ⟨word, more, behind, rfl, hword, hmore, hlength⟩ := h
  refine ⟨.char '\'' :: word, more, behind, rfl, ?_, hmore, by simp; omega⟩
  intro began fuel k hfuel
  obtain ⟨fuel, rfl⟩ : ∃ n, fuel = n + 1 := ⟨fuel - 1, by omega⟩
  simp only [List.length_cons] at hfuel
  obtain ⟨mark, hread⟩ :=
    hword began fuel (⟨'\'' :: '\'' :: s, k⟩ : Cursor).next.next.mark (by omega)
  refine ⟨mark, ?_⟩
  rw [quotedWord_of_end (by decide)]
  change prepended [.char '\''] (quotedWord .single began fuel _) = _
  rw [show (⟨'\'' :: '\'' :: s, k⟩ : Cursor).advance 2 =
    ⟨s, (⟨'\'' :: '\'' :: s, k⟩ : Cursor).next.next.mark⟩ from rfl, hread]
  rfl

/-- A double quote and a backslash stand for themselves between single quotes. -/
theorem ReadsOn.literal
    (h : ReadsOn .single s text rest) {c : Char} (hc : c = '"' ∨ c = '\\') :
    ReadsOn .single (c :: s) (.char c :: text) rest := by
  obtain ⟨word, more, behind, rfl, hword, hmore, hlength⟩ := h
  refine ⟨.char c :: word, more, behind, rfl, ?_, hmore, Nat.le_succ_of_le hlength⟩
  intro began fuel k hfuel
  obtain ⟨fuel, rfl⟩ : ∃ n, fuel = n + 1 := ⟨fuel - 1, by omega⟩
  rw [List.length_cons] at hfuel
  obtain ⟨mark, hread⟩ := hword began fuel (k.after c (s.headD ending)) (by omega)
  refine ⟨mark, ?_⟩
  rcases hc with rfl | rfl
  · rw [quotedWord_of_end (by decide)]
    change prepended [.char '"'] (quotedWord .single began fuel ⟨s, _⟩) = _
    rw [hread]
    rfl
  · rw [quotedWord_of_end (by decide)]
    change prepended [.char '\\'] (quotedWord .single began fuel ⟨s, _⟩) = _
    rw [hread]
    rfl

/-- An apostrophe stands for itself between double quotes. -/
theorem ReadsOn.plainApostrophe (h : ReadsOn .double s text rest) :
    ReadsOn .double ('\'' :: s) (.char '\'' :: text) rest := by
  obtain ⟨word, more, behind, rfl, hword, hmore, hlength⟩ := h
  refine ⟨.char '\'' :: word, more, behind, rfl, ?_, hmore, Nat.le_succ_of_le hlength⟩
  intro began fuel k hfuel
  obtain ⟨fuel, rfl⟩ : ∃ n, fuel = n + 1 := ⟨fuel - 1, by omega⟩
  rw [List.length_cons] at hfuel
  obtain ⟨mark, hread⟩ := hword began fuel (k.after '\'' (s.headD ending)) (by omega)
  refine ⟨mark, ?_⟩
  rw [quotedWord_of_end (by decide)]
  change prepended [.char '\''] (quotedWord .double began fuel ⟨s, _⟩) = _
  rw [hread]
  rfl

/-- An escape behind its backslash is read as code points. -/
def ReadsEscape (s : List Char) (text : List CodePoint) (rest : List Char) : Prop :=
  ∀ began k, ∃ mark, escapeSequence began ⟨s, k⟩ = .ok (text, ⟨rest, mark⟩)

theorem ReadsOn.escape
    (h : ReadsOn .double s text rest) {t : List Char} {escaped : List CodePoint}
    (hescape : ReadsEscape t escaped s)
    (hlt : s.length ≤ t.length) : ReadsOn .double ('\\' :: t) (escaped ++ text) rest := by
  obtain ⟨word, more, behind, rfl, hword, hmore, hlength⟩ := h
  refine ⟨escaped ++ word, more, behind, by simp, ?_, hmore, by simp; omega⟩
  intro began fuel k hfuel
  obtain ⟨fuel, rfl⟩ : ∃ n, fuel = n + 1 := ⟨fuel - 1, by omega⟩
  rw [List.length_cons] at hfuel
  obtain ⟨behindEscape, hread⟩ := hescape began (k.after '\\' (t.headD ending))
  obtain ⟨mark, hrest⟩ := hword began fuel behindEscape (by omega)
  refine ⟨mark, ?_⟩
  rw [quotedWord_of_end (by decide)]
  change (do
    let (piece, k) ← escapeSequence began ⟨t, _⟩
    prepended piece (quotedWord .double began fuel k)) = _
  rw [hread]
  simp [bind, Except.bind, hrest]

theorem ReadsOn.gap
    (h : ReadsOn quotes s text rest) {c : Char} {t gap : List Char}
    (hgap : ReadsGap (c :: t) gap s) (hc : isGap c = true) (hlength : s.length ≤ t.length) :
    ReadsOn quotes (c :: t) (pointsOf gap ++ text) rest := by
  have hne : c ≠ '\'' ∧ c ≠ '"' ∧ c ≠ '\\' := by
    refine ⟨?_, ?_, ?_⟩ <;> (rintro rfl; exact absurd hc (by decide))
  apply ReadsOn.of_rest
  · refine ⟨c, t, rfl, by simp [isQuotedWordEnd, hc], hne.2.2, ?_⟩
    cases quotes with
    | single => exact ⟨hne.2.1, fun heq => absurd heq hne.1⟩
    | double => exact hne.1
  · obtain ⟨word, more, behind, rfl, hword, hmore, hbehind⟩ := h
    intro began fuel k hfuel
    obtain ⟨fuel, rfl⟩ : ∃ n, fuel = n + 1 := ⟨fuel - 1, by omega⟩
    rw [List.length_cons] at hfuel
    obtain ⟨behindGap, hreadGap⟩ := hgap began k
    obtain ⟨behindWord, hreadWord⟩ := hword began (s.length + 1) behindGap (by omega)
    obtain ⟨mark, hreadRest⟩ := hmore began fuel behindWord (by omega)
    refine ⟨mark, ?_⟩
    have hquote : (⟨c :: t, k⟩ : Cursor).peek ≠ quotes.mark := by
      cases quotes with
      | single => exact hne.1
      | double => exact hne.2.1
    simp [quotedRest, hquote, hreadGap, hreadWord, hreadRest, bind, Except.bind, pure, Except.pure]

theorem ReadsOn.quotedScalar (h : ReadsOn quotes s text rest) (k : Mark) :
    ∃ mark, quotedScalar quotes ⟨quotes.mark :: s, k⟩ = .ok (text, ⟨rest, mark⟩) := by
  obtain ⟨word, more, behind, rfl, hword, hmore, -⟩ := h
  have hlength : s.length < (quotes.mark :: s).length + 1 := by
    rw [List.length_cons]
    omega
  obtain ⟨behindWord, hreadWord⟩ :=
    hword k ((quotes.mark :: s).length + 1) (k.after quotes.mark (s.headD ending)) hlength
  obtain ⟨mark, hreadMore⟩ := hmore k (behind.length + 1) behindWord (by omega)
  refine ⟨mark, ?_⟩
  have hnext : (⟨quotes.mark :: s, k⟩ : Cursor).next = ⟨s, k.after quotes.mark (s.headD ending)⟩ :=
    rfl
  simp only [Yaml.quotedScalar, hnext, hreadWord, bind, Except.bind, hreadMore, pure, Except.pure]

end Arranger.Yaml
