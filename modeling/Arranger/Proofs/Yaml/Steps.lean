import Arranger.Proofs.Yaml.Lexing

/-!
# Tokens of blocks

The tokens of block collections and of empty ones, as steps between lexers of which only what they
show is known.
-/

namespace Arranger.Yaml.Lexer


variable {l m : Lexer} {s : List Char} {column : Nat} {found : List Token.Content} {indents : List Nat}
  {allowsKey : Bool}

/-! ## In front of a token -/

/-- The lexer in front of the next token, with the blocks closed that end there. -/
def prepared (l : Lexer) : Except Error Lexer := do
  let l ← l.toNextToken.dropStale
  return l.unwind (some l.column)

theorem ShowsIn.prepared_spaces
    {n : Nat} (h : Shows l (spaces n ++ s) column found indents allowsKey) (hs : StartsToken s) :
    ∃ m, l.prepared = .ok m ∧
      Shows m s (column + n) (found ++ ends indents (column + n))
        (indents.dropWhile (column + n < ·)) allowsKey := by
  have hnext := toNextToken_spaces hs h.rest
  have hcolumn : (l.cursor.mark.through s (spaces n)).column = column + n := by
    rw [Mark.through_of_inline fun c hc => isInline_of_mem_spaces hc, ← h.column]
    simp [spaces, Lexer.column, Cursor.column]
  have hshows : Shows l.toNextToken s (column + n) found indents allowsKey := by
    rw [hnext]
    exact ⟨rfl, hcolumn, h.found, h.count, h.indents, h.flowDepth, h.allowsKey, h.candidates,
      h.isDone⟩
  obtain ⟨m, hdrop, hm⟩ := hshows.dropStale
  refine ⟨m.unwind (some m.column), ?_, hm.unwind⟩
  rw [prepared, hdrop]
  rfl

theorem ShowsIn.prepared_feed
    {n : Nat} (h : Shows l ('\n' :: spaces n ++ s) column found indents allowsKey)
    (hs : StartsToken s) :
    ∃ m, l.prepared = .ok m ∧
      Shows m s n (found ++ ends indents n) (indents.dropWhile (n < ·)) true := by
  have hnext := toNextToken_feed hs h.rest h.flowDepth
  have hcolumn : (l.cursor.mark.through s ('\n' :: spaces n)).column = n :=
    Mark.through_feed _ n s
  have hshows : Shows l.toNextToken s n found indents true := by
    rw [hnext]
    exact ⟨rfl, hcolumn, h.found, h.count, h.indents, h.flowDepth, rfl, h.candidates, h.isDone⟩
  obtain ⟨m, hdrop, hm⟩ := hshows.dropStale
  refine ⟨m.unwind (some m.column), ?_, hm.unwind⟩
  rw [prepared, hdrop]
  rfl

/-- The next token of a lexer that stands in front of it. -/
def dispatch (m : Lexer) : Except Error Lexer :=
  let next := m.cursor.peekAt 1
  let atLineStart := m.cursor.column = 0
  let followed := isGap next
  match m.cursor.peek with
  | '\x00' => m.streamEnd
  | '[' => m.flowStart .flowSequenceStart
  | '\x7b' => m.flowStart .flowMappingStart
  | ']' => m.flowEnd .flowSequenceEnd
  | '\x7d' => m.flowEnd .flowMappingEnd
  | ',' => m.flowEntry
  | '*' => m.aliasToken
  | '&' => m.anchorToken
  | '!' => m.tagToken
  | '\'' => m.quotedToken .single
  | '"' => m.quotedToken .double
  | c =>
      if c = '%' && atLineStart then m.directiveToken
      else if c = '-' && atLineStart && m.cursor.atDocumentMarker then
        m.documentMarker .documentStart
      else if c = '.' && atLineStart && m.cursor.atDocumentMarker then
        m.documentMarker .documentEnd
      else if c = '-' && followed then m.blockEntry
      else if c = '?' && (m.inFlow || followed) then m.keyToken
      else if c = ':' && (m.inFlow || followed) then m.valueToken
      else if c = '|' && !m.inFlow then m.blockToken false
      else if c = '>' && !m.inFlow then m.blockToken true
      else if m.startsPlain then m.plainToken
      else .error (.at .nextToken m.mark (.noTokenStart c) m.mark)

theorem step_of_prepared (hprepared : l.prepared = .ok m) : l.step = m.dispatch := by
  unfold prepared at hprepared
  cases hdrop : l.toNextToken.dropStale with
  | error e => simp [hdrop, bind, Except.bind] at hprepared
  | ok k =>
      rw [hdrop] at hprepared
      have hm : k.unwind (some k.column) = m := Except.ok.inj hprepared
      unfold step
      rw [hdrop, ← hm]
      rfl

/-- From one lexer the run comes to another one, and has fuel enough to come to the end. -/
def Leads (l m : Lexer) : Prop :=
  ∀ fuel, l.cursor.rest.length + 2 ≤ fuel →
    ∃ left, m.cursor.rest.length + 2 ≤ left ∧ run fuel l = run left m

theorem Leads.trans {k : Lexer} (hlm : Leads l m) (hmk : Leads m k) : Leads l k := by
  intro fuel hfuel
  obtain ⟨left, hleft, hrun⟩ := hlm fuel hfuel
  obtain ⟨rest, hrest, hrunRest⟩ := hmk left hleft
  exact ⟨rest, hrest, hrun.trans hrunRest⟩

theorem leads_of_dispatch
    {depth : Nat} {k : Lexer} (hdone : l.isDone = false) (hprepared : l.prepared = .ok m)
    (hdispatch : m.dispatch = .ok k) (hk : ShowsIn depth k s column found indents allowsKey)
    (hlength : s.length < l.cursor.rest.length) :
    ∃ k, Leads l k ∧ ShowsIn depth k s column found indents allowsKey := by
  obtain ⟨next, hdrop, hnext⟩ := hk.dropStale
  refine ⟨next, ?_, hnext⟩
  intro fuel hfuel
  obtain ⟨left, rfl⟩ : ∃ left, fuel = left + 1 := ⟨fuel - 1, by omega⟩
  refine ⟨left, ?_, ?_⟩
  · rw [hnext.rest]
    omega
  · have hstep : l.step = .ok k := (step_of_prepared hprepared).trans hdispatch
    simp [run, hdone, hstep, hk.isDone, hdrop]

/-- A lexer in front of a token, once it has passed over the gap and closed the blocks that end
there. -/
structure Stands (l : Lexer) (s : List Char) (column : Nat) (found : List Token.Content)
    (indents : List Nat) (allowsKey : Bool) : Prop where
  isDone : l.isDone = false
  length_le : s.length ≤ l.cursor.rest.length
  prepared : ∃ m, l.prepared = .ok m ∧ Shows m s column found indents allowsKey

theorem ShowsIn.stands_spaces
    {n : Nat} (h : Shows l (spaces n ++ s) column found indents allowsKey) (hs : StartsToken s) :
    Stands l s (column + n) (found ++ ends indents (column + n))
      (indents.dropWhile (column + n < ·)) allowsKey :=
  ⟨h.isDone, by simp [h.rest], h.prepared_spaces hs⟩

theorem ShowsIn.stands_feed
    {n : Nat} (h : Shows l ('\n' :: spaces n ++ s) column found indents allowsKey)
    (hs : StartsToken s) :
    Stands l s n (found ++ ends indents n) (indents.dropWhile (n < ·)) true :=
  ⟨h.isDone, by simp [h.rest]; omega, h.prepared_feed hs⟩

theorem Stands.leads
    {depth after : Nat} {t : List Char} {foundAfter : List Token.Content} {indentsAfter : List Nat}
    {allowsAfter : Bool} (h : Stands l t column found indents allowsKey)
    (hdispatch : ∀ m, Shows m t column found indents allowsKey →
      ∃ k, m.dispatch = .ok k ∧ ShowsIn depth k s after foundAfter indentsAfter allowsAfter)
    (hlength : s.length < t.length) :
    ∃ k, Leads l k ∧ ShowsIn depth k s after foundAfter indentsAfter allowsAfter := by
  obtain ⟨m, hprepared, hm⟩ := h.prepared
  obtain ⟨k, hk, hshows⟩ := hdispatch m hm
  exact leads_of_dispatch h.isDone hprepared hk hshows (Nat.lt_of_lt_of_le hlength h.length_le)

/-! ## Items -/

/-- What a lexer shows behind an indicator of one character. -/
theorem ShowsIn.pushIndicator
    {depth : Nat} {c : Char} (h : ShowsIn depth l (c :: s) column found indents allowsKey)
    (hc : IsInline c) (content : Token.Content) :
    ShowsIn depth (l.pushIndicator content 1) s (column + 1) (found ++ [content]) indents
      allowsKey := by
  have hadvance : l.cursor.advance 1 = ⟨s, l.cursor.mark.after c (s.headD ending)⟩ := by
    have hcursor : l.cursor = ⟨c :: s, l.cursor.mark⟩ := by rw [← h.rest]
    rw [hcursor]
    rfl
  have hafter : (l.cursor.mark.after c (s.headD ending)).column = column + 1 := by
    rw [Mark.after_of_inline hc]
    exact congrArg (· + 1) h.column
  refine ⟨?_, ?_, ?_, ?_, h.indents, h.flowDepth, h.allowsKey, h.candidates, h.isDone⟩
  · simp [Lexer.pushIndicator, hadvance]
  · rw [Lexer.pushIndicator, hadvance]
    exact hafter
  · exact (contents_push l _ _ _).trans (by rw [h.found])
  · simp [Lexer.pushIndicator, push, h.count]

/-- The token that opens a block at a column, unless a block is open there. -/
def opening (indents : List Nat) (column : Nat) (content : Token.Content) : List Token.Content :=
  if indents.head?.all (· < column) then [content] else []

def opened (indents : List Nat) (column : Nat) : List Nat :=
  if indents.head?.all (· < column) then column :: indents else indents

theorem opensBlock_eq (l : Lexer) (column : Nat) :
    l.opensBlock column = l.indents.head?.all (· < column) := by
  unfold opensBlock
  cases l.indents with
  | nil => rfl
  | cons indent outer => simp

theorem ShowsIn.openHere (h : Shows l s column found indents allowsKey) (content : Token.Content) :
    Shows (l.openHere content) s column (found ++ opening indents column content)
      (opened indents column) allowsKey := by
  unfold Lexer.openHere opening opened
  rw [opensBlock_eq, h.column, h.indents]
  split
  · refine ⟨h.rest, h.column, ?_, ?_, ?_, h.flowDepth, h.allowsKey, h.candidates, h.isDone⟩
    · rw [pushHere, contents_push, ← h.found]
      rfl
    · simp [pushHere, push, Lexer.openBlock, h.count]
    · simp [pushHere, push, Lexer.openBlock, h.indents]
  · simpa using h

theorem ShowsIn.dropCandidate (h : Shows l s column found indents allowsKey) :
    ∃ m, l.dropCandidate = .ok m ∧ Shows m s column found indents allowsKey ∧
      m.cursor = l.cursor ∧ m.candidates = [] ∧ m.found = l.found := by
  have hempty : l.candidates.filter (·.1 != l.flowDepth) = [] := by
    rw [List.filter_eq_nil_iff]
    intro entry hentry
    simp [(h.candidates entry hentry).1, h.flowDepth]
  have hshows : Shows { l with candidates := l.candidates.filter (·.1 != l.flowDepth) } s column
      found indents allowsKey :=
    ⟨h.rest, h.column, h.found, h.count, h.indents, h.flowDepth, h.allowsKey,
      by simp [hempty], h.isDone⟩
  cases hlookup : l.candidates.lookup l.flowDepth with
  | none =>
      have hnil : l.candidates = [] := by
        rw [← hempty]
        symm
        rw [List.filter_eq_self]
        intro entry hentry
        have hne := List.lookup_eq_none_iff.1 hlookup entry hentry
        simpa [bne, Bool.not_eq_true'] using fun heq : entry.1 = l.flowDepth => by
          simp [heq] at hne
      refine ⟨l, ?_, h, rfl, hnil, rfl⟩
      unfold Lexer.dropCandidate
      rw [hlookup]
  | some candidate =>
      have hmem : (l.flowDepth, candidate) ∈ l.candidates := by
        obtain ⟨l₁, l₂, hsplit, -⟩ := List.lookup_eq_some_iff.1 hlookup
        rw [hsplit]
        simp
      have hfree : candidate.isRequired = false := (h.candidates _ hmem).2
      refine ⟨_, ?_, hshows, rfl, hempty, rfl⟩
      unfold Lexer.dropCandidate
      rw [hlookup]
      simp [hfree]

theorem ShowsIn.blockEntry
    {c : Char} (h : Shows m ('-' :: c :: s) column found indents true) (hc : isGap c = true) :
    ∃ k, m.dispatch = .ok k ∧
      Shows k (c :: s) (column + 1) (found ++ opening indents column .blockSequenceStart ++
        [.blockEntry]) (opened indents column) true := by
  have hcursor : m.cursor = ⟨'-' :: c :: s, m.cursor.mark⟩ := by rw [← h.rest]
  have hpeek : m.cursor.peek = '-' := by rw [hcursor]; rfl
  have hnext : m.cursor.peekAt 1 = c := by rw [hcursor]; rfl
  have hdash : c ≠ '-' := by
    rintro rfl
    exact absurd hc (by decide)
  have hmarker : m.cursor.atDocumentMarker = false := by
    rw [hcursor]
    simp [Cursor.atDocumentMarker, hdash]
  have hflow : m.inFlow = false := by simp [inFlow, h.flowDepth]
  have hdispatch : m.dispatch = m.blockEntry := by
    simp [dispatch, hpeek, hnext, hmarker, hc]
  have hopen := h.openHere .blockSequenceStart
  have hfresh : Shows { m.openHere .blockSequenceStart with allowsKey := true } ('-' :: c :: s)
      column (found ++ opening indents column .blockSequenceStart) (opened indents column) true :=
    ⟨hopen.rest, hopen.column, hopen.found, hopen.count, hopen.indents, hopen.flowDepth, rfl,
      hopen.candidates, hopen.isDone⟩
  obtain ⟨k, hdrop, hk, hkCursor, -, -⟩ := hfresh.dropCandidate
  refine ⟨k.pushIndicator .blockEntry 1, ?_, hk.pushIndicator (by constructor <;> decide) _⟩
  rw [hdispatch]
  simp [Lexer.blockEntry, hflow, h.allowsKey, hdrop, bind, Except.bind, pure, Except.pure]

/-! ## Empty collections and scalars -/

theorem ShowsIn.saveCandidate
    (h : Shows l s column found indents allowsKey) (hcolumn : indents.head? ≠ some column) :
    ∃ m, l.saveCandidate = .ok m ∧ Shows m s column found indents allowsKey ∧
      m.cursor = l.cursor := by
  cases hkey : l.allowsKey with
  | false =>
      refine ⟨l, ?_, h, rfl⟩
      simp [Lexer.saveCandidate, hkey]
  | true =>
      obtain ⟨m, hdrop, hm, hcursor, hnil, -⟩ := h.dropCandidate
      have hfree : (!m.inFlow && m.indents.head? == some m.column) = false := by
        rw [hm.indents, hm.column]
        simp [hcolumn]
      refine ⟨{ m with candidates := m.candidates ++ [(m.flowDepth,
          ⟨m.count, !m.inFlow && m.indents.head? == some m.column, m.mark⟩)] }, ?_, ?_, hcursor⟩
      · simp [Lexer.saveCandidate, hkey, hdrop, bind, Except.bind, pure, Except.pure]
      · refine ⟨hm.rest, hm.column, hm.found, hm.count, hm.indents, hm.flowDepth, hm.allowsKey, ?_,
          hm.isDone⟩
        intro entry hentry
        rw [hnil, List.nil_append, List.mem_singleton] at hentry
        rw [hentry]
        exact ⟨hm.flowDepth, hfree⟩

/-- A bracket opens a flow collection. -/
theorem Stands.flowStart
    (h : Stands l ('[' :: s) column found indents allowsKey) (hcolumn : indents.head? ≠ some column) :
    ∃ k, Leads l k ∧ ShowsIn 1 k s (column + 1) (found ++ [.flowSequenceStart]) indents true := by
  apply h.leads _ (Nat.lt_succ_self _)
  intro m hm
  have hpeek : m.cursor.peek = '[' := by rw [Cursor.peek, hm.rest]; rfl
  obtain ⟨x, hsave, hx, -⟩ := hm.saveCandidate hcolumn
  have hopened : ShowsIn 1 { x with flowDepth := x.flowDepth + 1, allowsKey := true }
      ('[' :: s) column found indents true :=
    ⟨hx.rest, hx.column, hx.found, hx.count, hx.indents, by simp [hx.flowDepth], rfl,
      hx.candidates, hx.isDone⟩
  refine ⟨_, ?_, hopened.pushIndicator (by constructor <;> decide) .flowSequenceStart⟩
  simp [dispatch, hpeek, Lexer.flowStart, hsave, bind, Except.bind, pure, Except.pure]

/-- Inside a flow collection the lexer closes no block in front of a token. -/
theorem ShowsIn.prepared_inFlow
    (h : ShowsIn 1 m s column found indents allowsKey) (hs : StartsToken s) :
    ∃ y, m.prepared = .ok y ∧ ShowsIn 1 y s column found indents allowsKey := by
  have hnext : ShowsIn 1 m.toNextToken s column found indents allowsKey := by
    rw [toNextToken_spaces (n := 0) hs h.rest]
    exact ⟨rfl, h.column, h.found, h.count, h.indents, h.flowDepth, h.allowsKey, h.candidates,
      h.isDone⟩
  obtain ⟨y, hdrop, hy⟩ := hnext.dropStale
  have hinFlow : y.inFlow = true := by simp [inFlow, hy.flowDepth]
  refine ⟨y, ?_, hy⟩
  rw [Lexer.prepared, hdrop]
  simp [bind, Except.bind, pure, Except.pure, Lexer.unwind, hinFlow]

/-- A bracket closes the flow collection. -/
theorem ShowsIn.flowEnd
    (h : ShowsIn 1 m (']' :: s) column found indents allowsKey) :
    ∃ k, m.dispatch = .ok k ∧
      Shows k s (column + 1) (found ++ [.flowSequenceEnd]) indents false := by
  have hpeek : m.cursor.peek = ']' := by rw [Cursor.peek, h.rest]; rfl
  have hlookup : m.candidates.lookup m.flowDepth = none := by
    rw [List.lookup_eq_none_iff]
    intro entry hentry
    simp [(h.candidates entry hentry).1, h.flowDepth]
  have hclosed : Shows { m with flowDepth := m.flowDepth - 1, allowsKey := false } (']' :: s) column
      found indents false :=
    ⟨h.rest, h.column, h.found, h.count, h.indents, by simp [h.flowDepth], rfl, h.candidates,
      h.isDone⟩
  refine ⟨_, ?_, hclosed.pushIndicator (by constructor <;> decide) .flowSequenceEnd⟩
  simp [dispatch, hpeek, Lexer.flowEnd, Lexer.dropCandidate, hlookup, bind, Except.bind, pure,
    Except.pure]

theorem Stands.emptySequence
    (h : Stands l ('[' :: ']' :: s) column found indents allowsKey)
    (hcolumn : indents.head? ≠ some column) :
    ∃ k, Leads l k ∧
      Shows k s (column + 2) (found ++ [.flowSequenceStart, .flowSequenceEnd]) indents false := by
  obtain ⟨k, hlead, hk⟩ := h.flowStart hcolumn
  have hbracket : StartsToken (']' :: s) := by
    intro c hc
    rw [← Option.some.inj hc]
    decide
  obtain ⟨y, hprepared, hy⟩ := hk.prepared_inFlow hbracket
  obtain ⟨z, hdispatch, hz⟩ := hy.flowEnd
  obtain ⟨z', hleadEnd, hz'⟩ := leads_of_dispatch hk.isDone hprepared hdispatch hz (by simp [hk.rest])
  refine ⟨z', hlead.trans hleadEnd, ?_⟩
  simpa using hz'

theorem ShowsIn.quoted
    {quotes : Quotes} {rest : List Char} {points : List CodePoint} {mark : Mark}
    (h : Shows m (quotes.mark :: s) column found indents allowsKey)
    (hcolumn : indents.head? ≠ some column)
    (hread : quotedScalar quotes m.cursor = .ok (points, ⟨rest, mark⟩)) :
    ∃ k, m.dispatch = .ok k ∧
      Shows k rest mark.column (found ++ [.scalar ⟨.ofPoints points, false⟩]) indents
        false := by
  have hpeek : m.cursor.peek = quotes.mark := by rw [Cursor.peek, h.rest]; rfl
  have hdispatch : m.dispatch = m.quotedToken quotes := by
    cases quotes <;> simp [dispatch, hpeek, Quotes.mark]
  obtain ⟨x, hsave, hx, hcursor⟩ := h.saveCandidate hcolumn
  rw [← hcursor] at hread
  refine ⟨{ x.push (.scalar ⟨.ofPoints points, false⟩) x.mark mark with
      cursor := ⟨rest, mark⟩, allowsKey := false }, ?_, ?_⟩
  · rw [hdispatch]
    simp [quotedToken, keyLike, hsave, hread, bind, Except.bind, pure, Except.pure]
  · refine ⟨rfl, rfl, ?_, ?_, hx.indents, hx.flowDepth, rfl, hx.candidates, hx.isDone⟩
    · exact (contents_push x _ _ _).trans (by rw [hx.found])
    · simp [push, hx.count]

end Arranger.Yaml.Lexer
