import Arranger.Proofs.Yaml.Cursor
import Arranger.Yaml.Token.Stream

/-!
# Steps of the lexer

What a lexer shows are the text before it, its column, the tokens that it has found without their
places, and the indentations of the open blocks.  Each step first passes over the gap in front of
the next token and closes the blocks that end there; what the token does then depends on what the
lexer shows only.
-/

namespace Arranger.Yaml.Lexer


/-! ## What a lexer shows -/

/-- The contents of the tokens found, in order. -/
def contents (l : Lexer) : List Token.Content := l.found.reverse.map Token.content

/-- A lexer at a depth of flow collections, in which no token must become a key. -/
structure ShowsIn (depth : Nat) (l : Lexer) (rest : List Char) (column : Nat)
    (found : List Token.Content) (indents : List Nat) (allowsKey : Bool) : Prop where
  rest : l.cursor.rest = rest
  column : l.column = column
  found : l.contents = found
  count : l.count = l.found.length
  indents : l.indents = indents
  flowDepth : l.flowDepth = depth
  allowsKey : l.allowsKey = allowsKey
  candidates : ∀ entry ∈ l.candidates, entry.1 = 0 ∧ entry.2.isRequired = false
  isDone : l.isDone = false

/-- A lexer outside flow collections. -/
abbrev Shows := ShowsIn 0

variable {depth : Nat} {l m : Lexer} {s : List Char} {column : Nat} {found : List Token.Content} {indents : List Nat}
  {allowsKey : Bool}

theorem contents_push (l : Lexer) (content : Token.Content) (start stop : Mark) :
    (l.push content start stop).contents = l.contents ++ [content] := by
  simp [contents, push]

/-! ## The gap in front of a token -/

/-- A text that begins with a token, or the end of the text. -/
def StartsToken (s : List Char) : Prop :=
  ∀ c, s.head? = some c → c ≠ ' ' ∧ c ≠ '#' ∧ isBreak c = false ∧ c ≠ byteOrderMark

theorem StartsToken.head?_ne_space (hs : StartsToken s) : s.head? ≠ some ' ' := fun h =>
  (hs ' ' h).1 rfl

theorem StartsToken.peek_ne (hs : StartsToken s) (k : Mark) :
    (⟨s, k⟩ : Cursor).peek ≠ '#' ∧ (⟨s, k⟩ : Cursor).peek ≠ byteOrderMark := by
  cases s with
  | nil =>
      constructor
      · change ending ≠ '#'
        decide
      · change ending ≠ byteOrderMark
        decide
  | cons c rest => exact ⟨(hs c rfl).2.1, (hs c rfl).2.2.2⟩

theorem StartsToken.lineBreak (hs : StartsToken s) (k : Mark) :
    (⟨s, k⟩ : Cursor).lineBreak = none :=
  Cursor.lineBreak_of_not_isBreak (fun c hc => (hs c hc).2.2.1) k

theorem skipGap_spaces
    (hs : StartsToken s) {n : Nat} (hrest : l.cursor.rest = spaces n ++ s) (fuel : Nat) :
    l.skipGap (fuel + 1) = { l with cursor := ⟨s, l.cursor.mark.through s (spaces n)⟩ } := by
  have hcursor : l.cursor = ⟨spaces n ++ s, l.cursor.mark⟩ := by rw [← hrest]
  have hskip : l.cursor.skipSpaces = ⟨s, l.cursor.mark.through s (spaces n)⟩ := by
    rw [hcursor]
    exact Cursor.skipSpaces_spaces hs.head?_ne_space n _
  unfold skipGap
  rw [hskip]
  simp only [(hs.peek_ne _).1, if_false, hs.lineBreak]

theorem peek_spaces_ne_byteOrderMark (hs : StartsToken s) (n : Nat) (k : Mark) :
    (⟨spaces n ++ s, k⟩ : Cursor).peek ≠ byteOrderMark := by
  cases n with
  | zero => exact (hs.peek_ne k).2
  | succ n =>
      change ' ' ≠ byteOrderMark
      decide

theorem toNextToken_spaces
    (hs : StartsToken s) {n : Nat} (hrest : l.cursor.rest = spaces n ++ s) :
    l.toNextToken = { l with cursor := ⟨s, l.cursor.mark.through s (spaces n)⟩ } := by
  have hpeek : l.cursor.peek ≠ byteOrderMark := by
    have h := peek_spaces_ne_byteOrderMark hs n l.cursor.mark
    rwa [← hrest] at h
  unfold toNextToken
  simp only [hpeek, decide_false, Bool.and_false, Bool.false_eq_true, if_false]
  exact skipGap_spaces hs hrest _

theorem toNextToken_feed
    (hs : StartsToken s) {n : Nat} (hrest : l.cursor.rest = '\n' :: spaces n ++ s)
    (hflow : l.flowDepth = 0) :
    l.toNextToken = { l with
      cursor := ⟨s, l.cursor.mark.through s ('\n' :: spaces n)⟩
      allowsKey := true } := by
  have hcursor : l.cursor = ⟨'\n' :: (spaces n ++ s), l.cursor.mark⟩ := by
    rw [← List.cons_append, ← hrest]
  have hpeek : l.cursor.peek ≠ byteOrderMark := by
    rw [hcursor]
    change '\n' ≠ byteOrderMark
    decide
  have hlength : l.cursor.rest.length + 1 = (spaces n ++ s).length + 1 + 1 := by
    rw [hcursor]
    rfl
  have hskip : l.cursor.skipSpaces = l.cursor := by
    rw [hcursor]
    exact Cursor.skipSpaces_of_head (by simp) _
  have hhash : l.cursor.peek ≠ '#' := by
    rw [hcursor]
    change '\n' ≠ '#'
    decide
  have hbreak : l.cursor.lineBreak =
      some ('\n', ⟨spaces n ++ s, l.cursor.mark.through (spaces n ++ s) ['\n']⟩) := by
    rw [hcursor]
    exact Cursor.lineBreak_feed _ _
  have hkey : (l.allowsKey || !l.inFlow) = true := by simp [inFlow, hflow]
  unfold toNextToken
  simp only [hpeek, decide_false, Bool.and_false, Bool.false_eq_true, if_false]
  rw [hlength, skipGap, hskip]
  simp only [hhash, if_false, hbreak, hkey]
  rw [skipGap_spaces hs (n := n) rfl]
  simp [Mark.through_append _ s ['\n'] (spaces n) |>.symm]

/-! ## Candidates -/

theorem ShowsIn.dropStale (h : ShowsIn depth l s column found indents allowsKey) :
    ∃ m, l.dropStale = .ok m ∧ ShowsIn depth m s column found indents allowsKey := by
  refine ⟨{ l with candidates := l.candidates.filter fun entry => !l.isStale entry.2 }, ?_, ?_⟩
  · unfold Lexer.dropStale
    rw [List.find?_eq_none.2]
    intro entry hentry
    simp [(h.candidates entry hentry).2]
  · exact ⟨h.rest, h.column, h.found, h.count, h.indents, h.flowDepth, h.allowsKey,
      fun entry hentry => h.candidates entry (List.mem_of_mem_filter hentry), h.isDone⟩

/-! ## Blocks that end -/

/-- The ends of the blocks that are indented further than a column. -/
def ends (indents : List Nat) (column : Nat) : List Token.Content :=
  List.replicate (indents.takeWhile (column < ·)).length .blockEnd

theorem ends_of_le {column : Nat} (h : ∀ i, indents.head? = some i → i ≤ column) :
    ends indents column = [] ∧ indents.dropWhile (column < ·) = indents := by
  cases indents with
  | nil => exact ⟨rfl, rfl⟩
  | cons i outer =>
      have hi : ¬column < i := Nat.not_lt.2 (h i rfl)
      simp [ends, hi]

theorem foldl_pushHere (ended : List Nat) (l : Lexer) :
    let closed := ended.foldl (fun l _ => l.pushHere .blockEnd) l
    closed.contents = l.contents ++ List.replicate ended.length .blockEnd ∧
      closed.cursor = l.cursor ∧ closed.count + l.found.length = l.count + closed.found.length ∧
      closed.flowDepth = l.flowDepth ∧ closed.allowsKey = l.allowsKey ∧
      closed.candidates = l.candidates ∧ closed.isDone = l.isDone := by
  induction ended generalizing l with
  | nil => simp
  | cons indent ended ih =>
      obtain ⟨hfound, hcursor, hcount, hflow, hkey, hcandidates, hdone⟩ := ih (l.pushHere .blockEnd)
      refine ⟨?_, hcursor, ?_, hflow, hkey, hcandidates, hdone⟩
      · rw [List.foldl_cons, hfound, pushHere, contents_push]
        simp [List.replicate_succ]
      · simp only [pushHere, push, List.length_cons] at hcount
        simp only [List.foldl_cons, pushHere, push] at hcount ⊢
        omega

/-- Blocks that end at a column, or at the end of the text. -/
def endsAt (limit : Option Nat) (indent : Nat) : Bool :=
  match limit with
  | none => true
  | some column => column < indent

theorem ShowsIn.unwindTo (h : Shows l s column found indents allowsKey) (limit : Option Nat) :
    Shows (l.unwind limit) s column
      (found ++ List.replicate (indents.takeWhile (endsAt limit)).length .blockEnd)
      (indents.dropWhile (endsAt limit)) allowsKey := by
  have hflow : l.inFlow = false := by simp [inFlow, h.flowDepth]
  obtain ⟨hfound, hcursor, hcount, hdepth, hkey, hcandidates, hdone⟩ :=
    foldl_pushHere (indents.takeWhile (endsAt limit)) l
  have hdrop : indents.drop (indents.takeWhile (endsAt limit)).length =
      indents.dropWhile (endsAt limit) := by
    have hleft := @List.drop_left _ (indents.takeWhile (endsAt limit))
      (indents.dropWhile (endsAt limit))
    rwa [List.takeWhile_append_dropWhile] at hleft
  have hunwind : l.unwind limit =
      { (indents.takeWhile (endsAt limit)).foldl (fun l _ => l.pushHere .blockEnd) l with
        indents := indents.dropWhile (endsAt limit) } := by
    unfold Lexer.unwind
    rw [if_neg (by simp [hflow]), ← hdrop, ← h.indents]
    cases limit with
    | none => rfl
    | some column => rfl
  rw [hunwind]
  refine ⟨?_, ?_, ?_, ?_, rfl, hdepth.trans h.flowDepth, hkey.trans h.allowsKey, ?_,
    hdone.trans h.isDone⟩
  · rw [hcursor]
    exact h.rest
  · rw [Lexer.column, hcursor]
    exact h.column
  · rw [← h.found]
    exact hfound
  · have hcounts := h.count
    dsimp only
    omega
  · rw [hcandidates]
    exact h.candidates

theorem ShowsIn.unwind (h : Shows l s column found indents allowsKey) :
    Shows (l.unwind (some l.column)) s column (found ++ ends indents column)
      (indents.dropWhile (column < ·)) allowsKey := by
  rw [h.column]
  exact h.unwindTo (some column)

end Arranger.Yaml.Lexer
