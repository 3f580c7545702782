import Arranger.Yaml.Token.Property

/-!
# The tokens of a text

Tokens are found one after another.  A token that could begin a simple key is remembered for its
flow level; when a colon follows on the same line and within 1024 characters, the key token is
put in front of it.  If the text stops making sense, the tokens found so far are given together
with the reason; tokens that could still have become keys are withheld.
-/

namespace Arranger.Yaml

/-- A token that may turn out to begin a simple key: its number among the tokens and its place. -/
structure KeyCandidate where
  number : Nat
  isRequired : Bool
  place : Mark
  deriving Repr

structure Lexer where
  cursor : Cursor
  /-- The tokens found so far, the last one first. -/
  found : List Token
  count : Nat
  /-- The indentations of the open blocks, the innermost first; none outside all blocks. -/
  indents : List Nat
  flowDepth : Nat
  allowsKey : Bool
  /-- The candidates by flow level. -/
  candidates : List (Nat × KeyCandidate)
  isDone : Bool

namespace Lexer

def start (s : List Char) : Lexer where
  cursor := ⟨s, .start⟩
  found := []
  count := 0
  indents := []
  flowDepth := 0
  allowsKey := true
  candidates := []
  isDone := false

def mark (l : Lexer) : Mark := l.cursor.mark

def column (l : Lexer) : Nat := l.cursor.column

def inFlow (l : Lexer) : Bool := 0 < l.flowDepth

def push (l : Lexer) (content : Token.Content) (start stop : Mark) : Lexer :=
  { l with found := ⟨content, start, stop⟩ :: l.found, count := l.count + 1 }

def pushHere (l : Lexer) (content : Token.Content) : Lexer := l.push content l.mark l.mark

/-- Puts a token in front of the one with the given number. -/
def insertAt (l : Lexer) (number : Nat) (content : Token.Content) (place : Mark) : Lexer :=
  let later := l.found.take (l.count - number)
  let earlier := l.found.drop (l.count - number)
  { l with found := later ++ ⟨content, place, place⟩ :: earlier, count := l.count + 1 }

/-- Takes the next `n` characters as a token. -/
def pushIndicator (l : Lexer) (content : Token.Content) (n : Nat) : Lexer :=
  let after := l.cursor.advance n
  { l.push content l.mark after.mark with cursor := after }

/-- Ends the blocks that are indented further than the given column; all of them at no column. -/
def unwind (l : Lexer) (column : Option Nat) : Lexer :=
  if l.inFlow then l
  else
    let ended := l.indents.takeWhile fun indent => match column with
      | none => true
      | some column => column < indent
    let closed := ended.foldl (fun l _ => l.pushHere .blockEnd) l
    { closed with indents := l.indents.drop ended.length }

/-- Opens a block at a column unless one is open there. -/
def opensBlock (l : Lexer) (column : Nat) : Bool :=
  match l.indents with
  | [] => true
  | indent :: _ => indent < column

def openBlock (l : Lexer) (column : Nat) : Lexer := { l with indents := column :: l.indents }

/-! ## Simple keys -/

def failCandidate (l : Lexer) (candidate : KeyCandidate) : Error :=
  .at .simpleKey candidate.place .noColon l.mark

def dropCandidate (l : Lexer) : Except Error Lexer :=
  match l.candidates.lookup l.flowDepth with
  | none => .ok l
  | some candidate =>
      if candidate.isRequired then .error (l.failCandidate candidate)
      else .ok { l with candidates := l.candidates.filter (·.1 != l.flowDepth) }

def saveCandidate (l : Lexer) : Except Error Lexer :=
  if !l.allowsKey then .ok l
  else do
    let l ← l.dropCandidate
    let isRequired := !l.inFlow && l.indents.head? == some l.column
    return { l with candidates := l.candidates ++ [(l.flowDepth, ⟨l.count, isRequired, l.mark⟩)] }

def isStale (l : Lexer) (candidate : KeyCandidate) : Bool :=
  candidate.place.line != l.mark.line || candidate.place.index + 1024 < l.mark.index

/-- Forgets the candidates that lie on another line or too far back. -/
def dropStale (l : Lexer) : Except Error Lexer :=
  match l.candidates.find? fun (_, candidate) => l.isStale candidate && candidate.isRequired with
  | some (_, candidate) => .error (l.failCandidate candidate)
  | none => .ok { l with candidates := l.candidates.filter fun (_, c) => !l.isStale c }

/-! ## Between tokens -/

/-- Passes over blanks, comments and line breaks; a line break allows a simple key in blocks. -/
def skipGap : Nat → Lexer → Lexer
  | 0, l => l
  | fuel + 1, l =>
      let k := l.cursor.skipSpaces
      let k := if k.peek = '#' then k.skip (!endsLine ·) else k
      match k.lineBreak with
      | none => { l with cursor := k }
      | some (_, k) => skipGap fuel { l with cursor := k, allowsKey := l.allowsKey || !l.inFlow }

def toNextToken (l : Lexer) : Lexer :=
  let l := if l.mark.index = 0 && l.cursor.peek = byteOrderMark then
    { l with cursor := l.cursor.next } else l
  l.skipGap (l.cursor.rest.length + 1)

/-! ## Tokens -/

def outsideBlocks (l : Lexer) : Except Error Lexer := do
  let l ← (l.unwind none).dropCandidate
  return { l with allowsKey := false }

def streamEnd (l : Lexer) : Except Error Lexer := do
  let l ← l.outsideBlocks
  return { l.pushHere .streamEnd with candidates := [], isDone := true }

def directiveToken (l : Lexer) : Except Error Lexer := do
  let l ← l.outsideBlocks
  let ((content, stop), k) ← directive l.cursor
  return { l.push (.directive content) l.mark stop with cursor := k }

def documentMarker (l : Lexer) (content : Token.Content) : Except Error Lexer := do
  let l ← l.outsideBlocks
  return l.pushIndicator content 3

def flowStart (l : Lexer) (content : Token.Content) : Except Error Lexer := do
  let l ← l.saveCandidate
  return { l with flowDepth := l.flowDepth + 1, allowsKey := true }.pushIndicator content 1

def flowEnd (l : Lexer) (content : Token.Content) : Except Error Lexer := do
  let l ← l.dropCandidate
  return { l with flowDepth := l.flowDepth - 1, allowsKey := false }.pushIndicator content 1

def flowEntry (l : Lexer) : Except Error Lexer := do
  let l ← { l with allowsKey := true }.dropCandidate
  return l.pushIndicator .flowEntry 1

/-- Opens a block at the cursor if the indentation asks for one. -/
def openHere (l : Lexer) (content : Token.Content) : Lexer :=
  if l.opensBlock l.column then (l.openBlock l.column).pushHere content else l

def blockEntry (l : Lexer) : Except Error Lexer := do
  if !l.inFlow && !l.allowsKey then .error (.here .entryNotAllowed l.mark)
  else
    let l := if l.inFlow then l else l.openHere .blockSequenceStart
    let l ← { l with allowsKey := true }.dropCandidate
    return l.pushIndicator .blockEntry 1

def keyToken (l : Lexer) : Except Error Lexer := do
  if !l.inFlow && !l.allowsKey then .error (.here .keyNotAllowed l.mark)
  else
    let l := if l.inFlow then l else l.openHere .blockMappingStart
    let l ← { l with allowsKey := !l.inFlow }.dropCandidate
    return l.pushIndicator .key 1

/-- A colon behind a candidate makes it a key. -/
def valueOfCandidate (l : Lexer) (candidate : KeyCandidate) : Lexer :=
  let l := { l with candidates := l.candidates.filter (·.1 != l.flowDepth) }
  let l := l.insertAt candidate.number .key candidate.place
  let l :=
    if !l.inFlow && l.opensBlock candidate.place.column then
      (l.openBlock candidate.place.column).insertAt candidate.number .blockMappingStart
        candidate.place
    else l
  { l with allowsKey := false }.pushIndicator .value 1

def valueToken (l : Lexer) : Except Error Lexer :=
  match l.candidates.lookup l.flowDepth with
  | some candidate => .ok (l.valueOfCandidate candidate)
  | none =>
      if !l.inFlow && !l.allowsKey then .error (.here .valueNotAllowed l.mark)
      else do
        let l := if l.inFlow then l else l.openHere .blockMappingStart
        let l ← { l with allowsKey := !l.inFlow }.dropCandidate
        return l.pushIndicator .value 1

/-- A token that may begin a simple key and after which none may begin. -/
def keyLike (l : Lexer) (read : Cursor → Except Error (Token.Content × Cursor)) :
    Except Error Lexer := do
  let l ← l.saveCandidate
  let (content, k) ← read l.cursor
  return { l.push content l.mark k.mark with cursor := k, allowsKey := false }

def aliasToken (l : Lexer) : Except Error Lexer :=
  l.keyLike fun k => do
    let (name, k) ← anchorName .alias k
    return (.alias name, k)

def anchorToken (l : Lexer) : Except Error Lexer :=
  l.keyLike fun k => do
    let (name, k) ← anchorName .anchor k
    return (.anchor name, k)

def tagToken (l : Lexer) : Except Error Lexer :=
  l.keyLike fun k => do
    let ((handle, suffix), k) ← tag k
    return (.tag handle suffix, k)

def quotedToken (l : Lexer) (quotes : Quotes) : Except Error Lexer :=
  l.keyLike fun k => do
    let (points, k) ← quotedScalar quotes k
    return (.scalar ⟨.ofPoints points, false⟩, k)

/-- The least column of the lines of a scalar in the innermost block. -/
def innerIndent (l : Lexer) : Nat :=
  match l.indents with
  | [] => 0
  | indent :: _ => indent + 1

def blockToken (l : Lexer) (isFolded : Bool) : Except Error Lexer := do
  let l ← { l with allowsKey := true }.dropCandidate
  let (text, k) ← blockScalar isFolded (max 1 l.innerIndent) l.cursor
  return { l.push (.scalar ⟨.text (String.ofList text), false⟩) l.mark k.mark with cursor := k }

def plainToken (l : Lexer) : Except Error Lexer := do
  let l ← l.saveCandidate
  let scalar := plainScalar l.inFlow l.innerIndent l.cursor
  let content := Token.Content.scalar ⟨.text (String.ofList scalar.text), true⟩
  return { l.push content l.mark scalar.stop with
    cursor := scalar.cursor, allowsKey := scalar.endsLine }

def startsPlain (l : Lexer) : Bool :=
  let c := l.cursor.peek
  let next := l.cursor.peekAt 1
  !(isGap c || "-?:,[]\x7b\x7d#&*!|>'\"%@`".toList.contains c) ||
    (!isGap next && (c = '-' || (!l.inFlow && (c = '?' || c = ':'))))

/-- Finds the next token or tokens. -/
def step (l : Lexer) : Except Error Lexer := do
  let l ← l.toNextToken.dropStale
  let l := l.unwind (some l.column)
  let k := l.cursor
  let next := k.peekAt 1
  let atLineStart := k.column = 0
  let followed := isGap next
  match k.peek with
  | '\x00' => l.streamEnd
  | '[' => l.flowStart .flowSequenceStart
  | '\x7b' => l.flowStart .flowMappingStart
  | ']' => l.flowEnd .flowSequenceEnd
  | '\x7d' => l.flowEnd .flowMappingEnd
  | ',' => l.flowEntry
  | '*' => l.aliasToken
  | '&' => l.anchorToken
  | '!' => l.tagToken
  | '\'' => l.quotedToken .single
  | '"' => l.quotedToken .double
  | c =>
      if c = '%' && atLineStart then l.directiveToken
      else if c = '-' && atLineStart && k.atDocumentMarker then l.documentMarker .documentStart
      else if c = '.' && atLineStart && k.atDocumentMarker then l.documentMarker .documentEnd
      else if c = '-' && followed then l.blockEntry
      else if c = '?' && (l.inFlow || followed) then l.keyToken
      else if c = ':' && (l.inFlow || followed) then l.valueToken
      else if c = '|' && !l.inFlow then l.blockToken false
      else if c = '>' && !l.inFlow then l.blockToken true
      else if l.startsPlain then l.plainToken
      else .error (.at .nextToken l.mark (.noTokenStart c) l.mark)

/-- The tokens that can no longer change when the next token cannot be found. -/
def settled (l : Lexer) : List Token :=
  let limit := l.candidates.foldl (fun least (_, c) => min least c.number) l.count
  l.found.reverse.take limit

/-- The tokens of a text, and why they end if not with the end of the text. -/
def run : Nat → Lexer → List Token × Option Error
  | 0, l => (l.settled, none)
  | fuel + 1, l =>
      if l.isDone then (l.found.reverse, none)
      else match l.step with
        | .error e => (l.settled, some e)
        | .ok l =>
            if l.isDone then (l.found.reverse, none)
            else match l.dropStale with
              | .error e => (l.settled, some e)
              | .ok l => run fuel l

end Lexer

def isDocumentChar (c : Char) : Bool :=
  let n := c.toNat
  n = 0x09 || n = 0x0A || n = 0x0D || (0x20 ≤ n && n ≤ 0x7E) || n = 0x85 ||
    (0xA0 ≤ n && n ≤ 0xD7FF) || (0xE000 ≤ n && n ≤ 0xFFFD) || 0x10000 ≤ n

/-- The tokens of a text and why they end early; a text with a character that no document may hold
has none. -/
def tokens (s : List Char) : List Token × Option Error :=
  match s.findIdx? (!isDocumentChar ·) with
  | some index => ([], some (.problem (.unprintable (s[index]?.getD ending) index)))
  | none => Lexer.run (s.length + 2) (.start s)

end Arranger.Yaml
