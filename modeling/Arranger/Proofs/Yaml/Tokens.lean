import Arranger.Proofs.Yaml.Plain
import Arranger.Proofs.Yaml.Steps

/-!
# Plain scalars, keys and the end

A plain scalar becomes a token, and a plain scalar in front of a colon becomes a key.  The lexer
comes to the end of the text and closes the blocks that are still open.
-/

namespace Arranger.Yaml.Lexer


variable {l m : Lexer} {s : List Char} {column : Nat} {found : List Token.Content} {indents : List Nat}
  {allowsKey : Bool}

/-! ## Plain scalars -/

/-- A character that begins a plain scalar if the given one follows it. -/
structure BeginsPlain (c next : Char) : Prop where
  noIndicator : "#,[]\x7b\x7d&*!|>'\"%@`".toList.contains c = false
  noGap : isGap c = false
  next : c = '?' ∨ c = ':' ∨ c = '-' → isGap next = false

theorem BeginsPlain.startsPlain
    {c next : Char} (hbegins : BeginsPlain c next) (hpeek : m.cursor.peek = c)
    (hnext : m.cursor.peekAt 1 = next) (hflow : m.inFlow = false) : m.startsPlain = true := by
  unfold Lexer.startsPlain
  simp only [hpeek, hnext, hbegins.noGap, hflow]
  by_cases hspecial : c = '?' ∨ c = ':' ∨ c = '-'
  · have hgap := hbegins.next hspecial
    rcases hspecial with rfl | rfl | rfl
    · simp [hgap]
    · simp [hgap]
    · simp [hgap]
  · have hall : ("-?:,[]\x7b\x7d#&*!|>'\"%@`".toList.all fun d =>
        (d = '?' || d = ':' || d = '-') || "#,[]\x7b\x7d&*!|>'\"%@`".toList.contains d) = true := by
      decide
    have hlist : "-?:,[]\x7b\x7d#&*!|>'\"%@`".toList.contains c = false := by
      rw [← Bool.not_eq_true, List.contains_iff_mem]
      intro hmem
      have hc := List.all_eq_true.1 hall c hmem
      simp only [Bool.or_eq_true, decide_eq_true_eq] at hc
      rcases hc with ((h | h) | h) | h
      · exact hspecial (.inl h)
      · exact hspecial (.inr (.inl h))
      · exact hspecial (.inr (.inr h))
      · rw [hbegins.noIndicator] at h
        exact absurd h (by decide)
    rw [hlist]
    rfl

theorem BeginsPlain.ne
    {c next : Char} (hbegins : BeginsPlain c next) {d : Char}
    (hd : "#,[]\x7b\x7d&*!|>'\"%@`".toList.contains d = true) : c ≠ d := by
  rintro rfl
  rw [hbegins.noIndicator] at hd
  exact absurd hd (by decide)

theorem ShowsIn.dispatch_plain
    {c next : Char} (h : Shows m s column found indents allowsKey) (hbegins : BeginsPlain c next)
    (hpeek : m.cursor.peek = c) (hnext : m.cursor.peekAt 1 = next)
    (hstart : 0 < column ∨ c ≠ '-' ∧ c ≠ '.') : m.dispatch = m.plainToken := by
  have hflow : m.inFlow = false := by simp [inFlow, h.flowDepth]
  have hplain := hbegins.startsPlain hpeek hnext hflow
  have hending : c ≠ '\x00' := by
    rintro rfl
    exact absurd hbegins.noGap (by decide)
  have hcolumn : m.cursor.column = column := h.column
  have hmarker : ∀ d, d = '-' ∨ d = '.' →
      (c = d && decide (m.cursor.column = 0) && m.cursor.atDocumentMarker) = false := by
    intro d hd
    rw [hcolumn]
    rcases hstart with hpos | ⟨hdash, hpoint⟩
    · simp [Nat.pos_iff_ne_zero.1 hpos]
    · rcases hd with rfl | rfl
      · simp [hdash]
      · simp [hpoint]
  have hindicator : ∀ d, d = '-' ∨ d = '?' ∨ d = ':' → (c = d && isGap next) = false := by
    intro d hd
    by_cases hc : c = d
    · subst hc
      have hgap := hbegins.next (by tauto)
      simp [hgap]
    · simp [hc]
  unfold dispatch
  simp only [hpeek, hnext]
  split
  case h_1 => exact absurd rfl hending
  case h_12 =>
    rw [hmarker '-' (by simp), hmarker '.' (by simp), hflow, Bool.false_or,
      hindicator '-' (by simp), hindicator '?' (by simp), hindicator ':' (by simp), hplain]
    simp [hbegins.ne (d := '%') (by decide), hbegins.ne (d := '|') (by decide),
      hbegins.ne (d := '>') (by decide)]
  all_goals exact absurd rfl (hbegins.ne (by decide))

/-- The least column of the lines of a scalar inside blocks. -/
def inner (indents : List Nat) : Nat := (indents.head?.map (· + 1)).getD 0

theorem ShowsIn.innerIndent_eq (h : Shows m s column found indents allowsKey) :
    m.innerIndent = inner indents := by
  unfold innerIndent inner
  rw [h.indents]
  cases indents with
  | nil => rfl
  | cons indent outer => rfl

/-- A plain scalar that ends with its line. -/
theorem ShowsIn.plain
    {c next : Char} {text rest : List Char} {stop mark : Mark}
    (h : Shows m s column found indents allowsKey) (hbegins : BeginsPlain c next)
    (hpeek : m.cursor.peek = c) (hnext : m.cursor.peekAt 1 = next)
    (hstart : 0 < column ∨ c ≠ '-' ∧ c ≠ '.') (hcolumn : indents.head? ≠ some column)
    (hread : plainScalar false (inner indents) m.cursor = ⟨text, stop, true, ⟨rest, mark⟩⟩) :
    ∃ k, m.dispatch = .ok k ∧
      Shows k rest mark.column (found ++ [.scalar ⟨.text (String.ofList text), true⟩]) indents
        true := by
  obtain ⟨x, hsave, hx, hcursor⟩ := h.saveCandidate hcolumn
  have hflow : x.inFlow = false := by simp [inFlow, hx.flowDepth]
  have hscalar : plainScalar x.inFlow x.innerIndent x.cursor = ⟨text, stop, true, ⟨rest, mark⟩⟩ := by
    rw [hflow, hx.innerIndent_eq, hcursor]
    exact hread
  refine ⟨{ x.push (.scalar ⟨.text (String.ofList text), true⟩) x.mark stop with
      cursor := ⟨rest, mark⟩, allowsKey := true }, ?_, ?_⟩
  · rw [h.dispatch_plain hbegins hpeek hnext hstart]
    simp [plainToken, hsave, hscalar, bind, Except.bind, pure, Except.pure]
  · refine ⟨rfl, rfl, ?_, ?_, hx.indents, hx.flowDepth, rfl, hx.candidates, hx.isDone⟩
    · exact (contents_push x _ _ _).trans (by rw [hx.found])
    · simp [push, hx.count]

/-! ## Keys -/

/-- The name of a key: a few small letters. -/
structure IsKeyName (name : List Char) : Prop where
  ne_nil : name ≠ []
  letters : ∀ c ∈ name, Text.isLowerLetter c = true
  short : name.length ≤ 1024

theorem isPlainAscii_of_isLowerLetter {c : Char} (hc : Text.isLowerLetter c = true) :
    isPlainAscii c = true := by
  simp only [Text.isLowerLetter, isPlainAscii, Bool.and_eq_true, decide_eq_true_eq, Char.le_def,
    UInt32.le_iff_toNat_le] at hc ⊢
  have ha : 'a'.val.toNat = 97 := rfl
  have hz : 'z'.val.toNat = 122 := rfl
  have hspace : ' '.val.toNat = 32 := rfl
  have htilde : '~'.val.toNat = 126 := rfl
  omega

theorem ne_of_isLowerLetter {c d : Char} (hc : Text.isLowerLetter c = true)
    (hd : Text.isLowerLetter d = false) : c ≠ d := by
  rintro rfl
  rw [hc] at hd
  exact absurd hd (by decide)

theorem isGap_of_isLowerLetter {c : Char} (hc : Text.isLowerLetter c = true) :
    isGap c = false :=
  isGap_of_isPlainAscii (isPlainAscii_of_isLowerLetter hc) (ne_of_isLowerLetter hc (by decide))

theorem beginsPlain_of_isLowerLetter {c : Char} (hc : Text.isLowerLetter c = true) (next : Char) :
    BeginsPlain c next where
  noIndicator := by
    rw [← Bool.not_eq_true, List.contains_iff_mem]
    have hnone : "#,[]\x7b\x7d&*!|>'\"%@`".toList.any Text.isLowerLetter = false := by decide
    intro hmem
    exact List.any_eq_false.1 hnone c hmem hc
  noGap := isGap_of_isLowerLetter hc
  next := by
    rintro (rfl | rfl | rfl)
    · exact absurd hc (by decide)
    · exact absurd hc (by decide)
    · exact absurd hc (by decide)

theorem IsKeyName.isPlainWord {name : List Char} (hname : IsKeyName name) : IsPlainWord name where
  ne_nil := hname.ne_nil
  ascii := fun c hc => isPlainAscii_of_isLowerLetter (hname.letters c hc)
  noSpace := fun c hc => ne_of_isLowerLetter (hname.letters c hc) (by decide)
  noColon := by
    intro hlast
    have hmem := List.mem_of_getLast? hlast
    exact ne_of_isLowerLetter (hname.letters _ hmem) (by decide) rfl
  noHash := by
    intro hhead
    have hmem := List.mem_of_head? hhead
    exact ne_of_isLowerLetter (hname.letters _ hmem) (by decide) rfl

/-- A word in front of a colon is read up to the colon. -/
theorem plainScalar_key
    {name : List Char} (hname : IsKeyName name) {c : Char} (hc : isGap c = true) (s : List Char)
    (indent : Nat) (k : Mark) :
    plainScalar false indent ⟨name ++ ':' :: c :: s, k⟩ =
      ⟨name, k.through (':' :: c :: s) name, false, ⟨':' :: c :: s,
        k.through (':' :: c :: s) name⟩⟩ := by
  have hrest : plainLength false (':' :: c :: s) = 0 := by
    simp [plainLength, hc]
  have hspace : (':' :: c :: s).head? ≠ some ' ' := by simp
  have hbreak : ∀ d, (':' :: c :: s).head? = some d → isBreak d = false := by
    intro d hd
    rw [← Option.some.inj hd]
    decide
  have hgap := plainGap_spaces hspace hbreak 0 (k.through (':' :: c :: s) name)
  have hpieces := @plainPieces_word name _ [] indent (name ++ ':' :: c :: s).length
    ⟨[], k, false, ⟨name ++ ':' :: c :: s, k⟩⟩ k _ hname.isPlainWord hrest rfl hgap
  simpa [spaces, plainScalar, Mark.through] using hpieces

theorem run_of_step
    {k next : Lexer} (hdone : l.isDone = false) (hstep : l.step = .ok k) (hk : k.isDone = false)
    (hdrop : k.dropStale = .ok next) (fuel : Nat) : run (fuel + 1) l = run fuel next := by
  simp [run, hdone, hstep, hk, hdrop]

/-- A lexer behind a plain scalar that becomes a key if a colon follows. -/
structure AwaitsColon (p : Lexer) (s : List Char) (column : Nat) (found : List Token.Content)
    (name : List Char) (indents : List Nat) : Prop where
  rest : p.cursor.rest = s
  found : ∃ token earlier, p.found = token :: earlier ∧
    token.content = .scalar ⟨.text (String.ofList name), true⟩ ∧
    earlier.reverse.map Token.content = found ∧ p.count = earlier.length + 1
  candidate : ∃ candidate, p.candidates = [(0, candidate)] ∧ candidate.number + 1 = p.count ∧
    candidate.place.column = column ∧ p.isStale candidate = false
  column : p.column = column + name.length
  indents : p.indents = indents
  flowDepth : p.flowDepth = 0
  isDone : p.isDone = false

theorem AwaitsColon.dropStale
    {p : Lexer} {name : List Char} (h : AwaitsColon p s column found name indents) :
    p.dropStale = .ok p := by
  obtain ⟨candidate, hcandidates, -, -, hfresh⟩ := h.candidate
  unfold Lexer.dropStale
  rw [hcandidates]
  simp only [List.find?_cons, hfresh, Bool.false_and, List.find?_nil, List.filter_cons,
    Bool.not_false, if_true, List.filter_nil]
  rw [← hcandidates]

theorem ShowsIn.dispatch_name
    {name : List Char} (h : Shows m (name ++ s) column found indents allowsKey)
    (hname : IsKeyName name) : m.dispatch = m.plainToken := by
  obtain ⟨d, name, rfl⟩ := List.exists_cons_of_ne_nil hname.ne_nil
  have hd := hname.letters d (by simp)
  have hpeek : m.cursor.peek = d := by rw [Cursor.peek, h.rest]; rfl
  exact h.dispatch_plain (beginsPlain_of_isLowerLetter hd _) hpeek rfl
    (Or.inr ⟨ne_of_isLowerLetter hd (by decide), ne_of_isLowerLetter hd (by decide)⟩)

theorem ShowsIn.plainKey
    {name : List Char} {c : Char} (h : Shows m (name ++ ':' :: c :: s) column found indents true)
    (hname : IsKeyName name) (hc : isGap c = true) :
    ∃ p, m.dispatch = .ok p ∧ AwaitsColon p (':' :: c :: s) column found name indents := by
  obtain ⟨y, hdrop, hy, hcursor, hnil, hfound⟩ := h.dropCandidate
  have hyCursor : y.cursor = ⟨name ++ ':' :: c :: s, y.cursor.mark⟩ := by rw [← hy.rest]
  have hflow : y.inFlow = false := by simp [inFlow, hy.flowDepth]
  obtain ⟨candidate, hcandidate⟩ : ∃ candidate : KeyCandidate,
      candidate = ⟨y.count, !y.inFlow && y.indents.head? == some y.column, y.mark⟩ := ⟨_, rfl⟩
  have hsave : m.saveCandidate = .ok { y with candidates := [(0, candidate)] } := by
    simp [Lexer.saveCandidate, h.allowsKey, hdrop, hnil, hcandidate, hy.flowDepth, bind, Except.bind,
      pure, Except.pure]
  obtain ⟨stop, hstop⟩ : ∃ stop : Mark, stop = y.cursor.mark.through (':' :: c :: s) name := ⟨_, rfl⟩
  have hread : plainScalar false y.innerIndent y.cursor = ⟨name, stop, false, ⟨':' :: c :: s, stop⟩⟩ := by
    rw [hyCursor, plainScalar_key hname hc, hstop]
  have hmark : stop = ⟨y.mark.index + name.length, y.mark.line, y.mark.column + name.length⟩ := by
    rw [hstop]
    exact Mark.through_of_inline
      (fun d hd => isInline_of_isPlainAscii (isPlainAscii_of_isLowerLetter (hname.letters d hd))) _ _
  refine ⟨{ y with
    found := ⟨.scalar ⟨.text (String.ofList name), true⟩, y.mark, stop⟩ :: y.found
    count := y.count + 1
    candidates := [(0, candidate)]
    cursor := ⟨':' :: c :: s, stop⟩
    allowsKey := false }, ?_, ?_⟩
  · rw [h.dispatch_name hname]
    have hplace : Lexer.mark { y with candidates := [(0, candidate)] } = y.mark := rfl
    have hinner : Lexer.innerIndent { y with candidates := [(0, candidate)] } = y.innerIndent := rfl
    have hinFlow : Lexer.inFlow { y with candidates := [(0, candidate)] } = y.inFlow := rfl
    simp [plainToken, hsave, bind, Except.bind, pure, Except.pure, hplace, hinner, hinFlow, hflow,
      hread, push]
  · have hcolumn : y.mark.column = column := hy.column
    refine ⟨rfl, ⟨_, y.found, rfl, rfl, hy.found, ?_⟩, ⟨candidate, rfl, ?_, ?_, ?_⟩, ?_, hy.indents,
      hy.flowDepth, hy.isDone⟩
    · exact congrArg (· + 1) hy.count
    · simp [hcandidate]
    · simp [hcandidate, hcolumn]
    · have hshort := hname.short
      simp only [isStale, Lexer.mark, hcandidate, hmark]
      simp
      omega
    · change stop.column = column + name.length
      rw [hmark, ← hcolumn]

theorem AwaitsColon.prepared
    {p : Lexer} {name : List Char} {c : Char}
    (h : AwaitsColon p (':' :: c :: s) column found name indents)
    (hle : ∀ i, indents.head? = some i → i ≤ column) : p.prepared = .ok p := by
  have hcolon : StartsToken (':' :: c :: s) := by
    intro d hd
    rw [← Option.some.inj hd]
    decide
  have hcursor : p.cursor = ⟨':' :: c :: s, p.cursor.mark⟩ := by rw [← h.rest]
  have hnext : p.toNextToken = p := by
    rw [toNextToken_spaces (n := 0) hcolon h.rest]
    change { p with cursor := ⟨':' :: c :: s, p.cursor.mark⟩ } = p
    rw [← hcursor]
  have hflow : p.inFlow = false := by simp [inFlow, h.flowDepth]
  have hkept : p.indents.takeWhile (fun indent => decide (p.column < indent)) = [] := by
    rw [h.indents, h.column]
    cases indents with
    | nil => rfl
    | cons i outer =>
        have hi := hle i rfl
        have hnot : ¬column + name.length < i := by omega
        simp [hnot]
  have hunwind : p.unwind (some p.column) = p := by
    simp [Lexer.unwind, hflow, hkept]
  rw [Lexer.prepared, hnext, h.dropStale]
  exact congrArg Except.ok hunwind

/-- The lexer when the key stands in front of its scalar. -/
def keyed (p : Lexer) (token : Token) (earlier : List Token) (place : Mark) : Lexer :=
  { p with
    candidates := []
    found := token :: ⟨.key, place, place⟩ :: earlier
    count := p.count + 1 }

theorem AwaitsColon.shows_keyed
    {p : Lexer} {name : List Char} {token : Token} {earlier : List Token}
    (h : AwaitsColon p s column found name indents)
    (htoken : token.content = .scalar ⟨.text (String.ofList name), true⟩)
    (hearlier : earlier.reverse.map Token.content = found) (hcount : p.count = earlier.length + 1)
    (place : Mark) :
    Shows { keyed p token earlier place with allowsKey := false } s (column + name.length)
      (found ++ [.key, .scalar ⟨.text (String.ofList name), true⟩]) indents false := by
  refine ⟨h.rest, h.column, ?_, ?_, h.indents, h.flowDepth, rfl, ?_, h.isDone⟩
  · simp [contents, keyed, htoken, ← hearlier]
  · simp [keyed, hcount]
  · simp [keyed]

/-- The first key of a mapping opens the block in front of it. -/
theorem AwaitsColon.shows_opened
    {p : Lexer} {name : List Char} {token : Token} {earlier : List Token} {number : Nat}
    (h : AwaitsColon p s column found name indents)
    (htoken : token.content = .scalar ⟨.text (String.ofList name), true⟩)
    (hearlier : earlier.reverse.map Token.content = found) (hcount : p.count = earlier.length + 1)
    (hnumber : number + 1 = p.count) (place : Mark) :
    Shows { ((keyed p token earlier place).openBlock column).insertAt number .blockMappingStart
        place with allowsKey := false } s (column + name.length)
      (found ++ [.blockMappingStart, .key, .scalar ⟨.text (String.ofList name), true⟩])
      (column :: indents) false := by
  have htwo : p.count + 1 - number = 2 := by omega
  refine ⟨h.rest, h.column, ?_, ?_, ?_, h.flowDepth, rfl, ?_, h.isDone⟩
  · simp [contents, insertAt, openBlock, keyed, htwo, htoken, ← hearlier]
  · simp [insertAt, openBlock, keyed, hcount]
    omega
  · simp [insertAt, openBlock, keyed, h.indents]
  · simp [insertAt, openBlock, keyed]

/-- A colon puts the key in front of the scalar, and the mapping in front of its first key. -/
theorem AwaitsColon.valueToken
    {p : Lexer} {name : List Char} {c : Char}
    (h : AwaitsColon p (':' :: c :: s) column found name indents) :
    ∃ k, p.valueToken = .ok k ∧
      Shows k (c :: s) (column + name.length + 1) (found ++ opening indents column .blockMappingStart ++
        [.key, .scalar ⟨.text (String.ofList name), true⟩, .value]) (opened indents column) false := by
  obtain ⟨candidate, hcandidates, hnumber, hplace, -⟩ := h.candidate
  obtain ⟨token, earlier, hfound, htoken, hearlier, hcount⟩ := h.found
  have hflow : p.inFlow = false := by simp [inFlow, h.flowDepth]
  have hlookup : p.candidates.lookup p.flowDepth = some candidate := by
    simp [hcandidates, h.flowDepth]
  have hone : p.count - candidate.number = 1 := by omega
  have hkey : { p with candidates := p.candidates.filter (·.1 != p.flowDepth) }.insertAt
      candidate.number .key candidate.place = keyed p token earlier candidate.place := by
    simp [keyed, insertAt, hcandidates, h.flowDepth, hone, hfound]
  have hkeyedFlow : (keyed p token earlier candidate.place).inFlow = false := hflow
  have hopens : (keyed p token earlier candidate.place).opensBlock column =
      indents.head?.all (· < column) := by
    rw [opensBlock_eq]
    exact congrArg (fun indents => indents.head?.all (· < column)) h.indents
  have hvalue : p.valueToken = .ok (({ (if indents.head?.all (· < column) then
      ((keyed p token earlier candidate.place).openBlock column).insertAt candidate.number
        .blockMappingStart candidate.place else keyed p token earlier candidate.place) with
      allowsKey := false } : Lexer).pushIndicator .value 1) := by
    simp only [Lexer.valueToken, hlookup, valueOfCandidate, hkey, hkeyedFlow, hopens, Bool.not_false,
      Bool.true_and, hplace]
  refine ⟨_, hvalue, ?_⟩
  unfold opening opened
  split
  · have hshows := h.shows_opened htoken hearlier hcount hnumber candidate.place
    simpa using hshows.pushIndicator (by constructor <;> decide) .value
  · have hshows := h.shows_keyed htoken hearlier hcount candidate.place
    simpa using hshows.pushIndicator (by constructor <;> decide) .value

theorem AwaitsColon.value
    {p : Lexer} {name : List Char} {c : Char}
    (h : AwaitsColon p (':' :: c :: s) column found name indents) (hc : isGap c = true)
    (hle : ∀ i, indents.head? = some i → i ≤ column) :
    ∃ k, p.step = .ok k ∧
      Shows k (c :: s) (column + name.length + 1) (found ++ opening indents column .blockMappingStart ++
        [.key, .scalar ⟨.text (String.ofList name), true⟩, .value]) (opened indents column) false := by
  have hpeek : p.cursor.peek = ':' := by rw [Cursor.peek, h.rest]; rfl
  have hnext : p.cursor.peekAt 1 = c := by rw [Cursor.peekAt, h.rest]; rfl
  have hdispatch : p.dispatch = p.valueToken := by
    simp [dispatch, hpeek, hnext, hc]
  rw [step_of_prepared (h.prepared hle), hdispatch]
  exact h.valueToken

theorem Stands.key
    {name : List Char} {c : Char} (h : Stands l (name ++ ':' :: c :: s) column found indents true)
    (hname : IsKeyName name) (hc : isGap c = true) (hle : ∀ i, indents.head? = some i → i ≤ column) :
    ∃ k, Leads l k ∧
      Shows k (c :: s) (column + name.length + 1) (found ++ opening indents column .blockMappingStart ++
        [.key, .scalar ⟨.text (String.ofList name), true⟩, .value]) (opened indents column) false := by
  obtain ⟨m, hprepared, hm⟩ := h.prepared
  obtain ⟨p, hdispatch, hp⟩ := hm.plainKey hname hc
  obtain ⟨k, hstep, hk⟩ := hp.value hc hle
  obtain ⟨next, hdrop, hnext⟩ := hk.dropStale
  refine ⟨next, ?_, hnext⟩
  intro fuel hfuel
  have hlength := h.length_le
  have hpos := List.length_pos_iff.2 hname.ne_nil
  simp only [List.length_append, List.length_cons] at hlength
  obtain ⟨left, rfl⟩ : ∃ left, fuel = left + 2 := ⟨fuel - 2, by omega⟩
  refine ⟨left, ?_, ?_⟩
  · rw [hnext.rest, List.length_cons]
    omega
  · rw [run_of_step h.isDone ((step_of_prepared hprepared).trans hdispatch) hp.isDone hp.dropStale,
      run_of_step hp.isDone hstep hk.isDone hdrop]

/-! ## The end of the text -/

theorem Stands.streamEnd
    (h : Stands l [] column found indents allowsKey) {fuel : Nat} (hfuel : 0 < fuel) :
    ∃ tokens, run fuel l = (tokens, none) ∧ tokens.map Token.content =
      found ++ List.replicate indents.length .blockEnd ++ [.streamEnd] := by
  obtain ⟨fuel, rfl⟩ : ∃ left, fuel = left + 1 := ⟨fuel - 1, by omega⟩
  obtain ⟨m, hprepared, hm⟩ := h.prepared
  have hpeek : m.cursor.peek = '\x00' := by rw [Cursor.peek, hm.rest]; rfl
  have hdispatch : m.dispatch = m.streamEnd := by
    simp [dispatch, hpeek]
  obtain ⟨x, hdrop, hx, -, -, -⟩ := (hm.unwindTo none).dropCandidate
  have hall : indents.takeWhile (endsAt none) = indents := by
    have hevery := @List.takeWhile_append_of_pos _ (endsAt none) indents [] fun _ _ => rfl
    simpa using hevery
  have hfound := hx.found
  rw [hall] at hfound
  have hstep : l.step = .ok { ({ x with allowsKey := false } : Lexer).pushHere .streamEnd with
      candidates := [], isDone := true } := by
    rw [step_of_prepared hprepared, hdispatch]
    simp [Lexer.streamEnd, outsideBlocks, hdrop, bind, Except.bind, pure, Except.pure]
  refine ⟨(({ x with allowsKey := false } : Lexer).pushHere .streamEnd).found.reverse, ?_, ?_⟩
  · simp [run, h.isDone, hstep]
  · rw [← hfound]
    exact contents_push _ _ _ _

end Arranger.Yaml.Lexer
