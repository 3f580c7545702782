import Arranger.Yaml.Token.Basic

/-!
# Scalar texts

A scalar is plain, quoted, or a block that follows an indicator.  In all of them a single line
break between words reads as a space, and further breaks are kept.
-/

namespace Arranger.Yaml

/-- The break and the further breaks between two pieces, folded. -/
def foldedBreaks (first : Char) (further : List Char) : List Char :=
  if first != '\n' then first :: further
  else if further.isEmpty then [' ']
  else further

/-! ## Plain scalars -/

def isFlowIndicator (c : Char) : Bool :=
  c = ',' || c = '[' || c = ']' || c = '\x7b' || c = '\x7d'

/-- How many characters a piece of a plain scalar without gaps has. -/
def plainLength (inFlow : Bool) : List Char → Nat
  | [] => 0
  | c :: rest =>
      let next := rest.headD ending
      if isGap c || (c = ':' && (isGap next || (inFlow && isFlowIndicator next))) ||
          (inFlow && (isFlowIndicator c || c = '?')) then 0
      else plainLength inFlow rest + 1

/-- The further line breaks after the first one in a plain scalar, up to the next word; none if a
document marker is met. -/
def plainBreaks : Nat → Cursor → Option (List Char) × Cursor
  | 0, k => (some [], k)
  | fuel + 1, k =>
      if k.peek = ' ' then plainBreaks fuel k.next
      else match k.lineBreak with
        | none => (some [], k)
        | some (c, k) =>
            if k.atDocumentMarker then (none, k)
            else
              let (further, k) := plainBreaks fuel k
              (further.map (c :: ·), k)

/-- What separates two pieces of a plain scalar. -/
structure PlainGap where
  text : List Char
  hasBreak : Bool
  cursor : Cursor

def plainGap (k : Cursor) : PlainGap :=
  let (spaces, k) := k.span (· = ' ')
  match k.lineBreak with
  | none => ⟨spaces, false, k⟩
  | some (first, k) =>
      if k.atDocumentMarker then ⟨[], true, k⟩
      else match plainBreaks k.rest.length k with
        | (none, k) => ⟨[], true, k⟩
        | (some further, k) => ⟨foldedBreaks first further, true, k⟩

structure PlainScalar where
  text : List Char
  stop : Mark
  /-- Whether a simple key may follow, because the scalar is followed by a line break. -/
  endsLine : Bool
  cursor : Cursor

/-- Reads further pieces of a plain scalar as long as they are indented by at least `indent`.  The
gap stands in front of the next piece, if there is one; `before` is where the last piece ended. -/
def plainPieces (inFlow : Bool) (indent : Nat) : Nat → List Char → PlainScalar → PlainScalar
  | 0, _, before => before
  | fuel + 1, gap, before =>
      let k := before.cursor
      let size := plainLength inFlow k.rest
      if k.peek = '#' || size = 0 then before
      else
        let after := k.advance size
        let between := plainGap after
        let here : PlainScalar := ⟨[], after.mark, between.hasBreak, between.cursor⟩
        let further :=
          if between.text.isEmpty || between.cursor.peek = '#' ||
              (!inFlow && between.cursor.column < indent) then here
          else plainPieces inFlow indent fuel between.text here
        { further with text := gap ++ k.rest.take size ++ further.text }

def plainScalar (inFlow : Bool) (indent : Nat) (k : Cursor) : PlainScalar :=
  plainPieces inFlow indent (k.rest.length + 1) [] ⟨[], k.mark, false, k⟩

/-! ## Quoted scalars -/

inductive Quotes where
  | single
  | double
  deriving DecidableEq, Repr

def Quotes.mark : Quotes → Char
  | .single => '\''
  | .double => '"'

def namedEscape? (c : Char) : Option Char :=
  [('0', '\x00'), ('a', '\x07'), ('b', '\x08'), ('t', '\t'), ('\t', '\t'), ('n', '\n'),
   ('v', '\x0b'), ('f', '\x0c'), ('r', '\r'), ('e', '\x1b'), (' ', ' '), ('"', '"'),
   ('\\', '\\'), ('/', '/'), ('N', '\x85'), ('_', '\xa0'), ('L', '\u2028'),
   ('P', '\u2029')].lookup c

def escapeWidth? (c : Char) : Option Nat := [('x', 2), ('u', 4), ('U', 8)].lookup c

/-- The line breaks after the first one in a quoted scalar, and the blanks around them. -/
def quotedBreaks (began : Mark) : Nat → Cursor → Except Error (List Char × Cursor)
  | 0, k => .ok ([], k)
  | fuel + 1, k =>
      if k.atDocumentMarker then .error (.at .quotedScalar began .documentSeparator k.mark)
      else
        let k := k.skip fun c => c = ' ' || c = '\t'
        match k.lineBreak with
        | none => .ok ([], k)
        | some (c, k) => do
            let (further, k) ← quotedBreaks began fuel k
            return (c :: further, k)

/-- The blanks and line breaks between two words of a quoted scalar. -/
def quotedGap (began : Mark) (k : Cursor) : Except Error (List Char × Cursor) :=
  let (blanks, k) := k.span fun c => c = ' ' || c = '\t'
  if k.rest.isEmpty then .error (.at .quotedScalar began .streamEnd k.mark)
  else match k.lineBreak with
    | none => .ok (blanks, k)
    | some (first, k) => do
        let (further, k) ← quotedBreaks began (k.rest.length + 1) k
        return (foldedBreaks first further, k)

/-- The code point with a code. -/
def codePoint (code : Nat) : Except Error CodePoint :=
  if 0x110000 ≤ code then .error (.codePoint code)
  else if h : 0xD800 ≤ code ∧ code < 0xE000 then .ok (.surrogate ⟨code - 0xD800, by omega⟩)
  else .ok (.char (Char.ofNat code))

def hexCode (began : Mark) (width : Nat) (k : Cursor) : Except Error (Nat × Cursor) :=
  let digits := (List.range width).map k.peekAt
  match digits.find? fun c => (Text.hexValue? c).isNone with
  | some c => .error (.at .doubleQuotedScalar began (.noHexDigits width c) k.mark)
  | none => .ok (Text.ofDigits 16 (digits.filterMap Text.hexValue?), k.advance width)

/-- Reads an escape sequence; the cursor stands behind its backslash. -/
def escapeSequence (began : Mark) (k : Cursor) : Except Error (List CodePoint × Cursor) :=
  let c := k.peek
  match namedEscape? c, escapeWidth? c with
  | some named, _ => .ok ([.char named], k.next)
  | none, some width => do
      let (code, k) ← hexCode began width k.next
      return ([← codePoint code], k)
  | none, none =>
      match k.lineBreak with
      | some (_, k) => do
          let (further, k) ← quotedBreaks began (k.rest.length + 1) k
          return (pointsOf further, k)
      | none => .error (.at .doubleQuotedScalar began (.unknownEscape c) k.mark)

def isQuotedWordEnd (c : Char) : Bool := c = '\'' || c = '"' || c = '\\' || isGap c

/-- The code points of a quoted scalar up to a blank, a line break or the closing quote. -/
def quotedWord (quotes : Quotes) (began : Mark) :
    Nat → Cursor → Except Error (List CodePoint × Cursor)
  | 0, k => .ok ([], k)
  | fuel + 1, k => do
      let (run, k) := k.span fun c => !isQuotedWordEnd c
      let c := k.peek
      let continued (piece : List CodePoint) (k : Cursor) :
          Except Error (List CodePoint × Cursor) := do
        let (rest, k) ← quotedWord quotes began fuel k
        return (pointsOf run ++ piece ++ rest, k)
      match quotes with
      | .single =>
          if c = '\'' && k.peekAt 1 = '\'' then continued [.char '\''] (k.advance 2)
          else if c = '"' || c = '\\' then continued [.char c] k.next
          else return (pointsOf run, k)
      | .double =>
          if c = '\'' then continued [.char c] k.next
          else if c = '\\' then
            let (piece, k) ← escapeSequence began k.next
            continued piece k
          else return (pointsOf run, k)

def quotedRest (quotes : Quotes) (began : Mark) :
    Nat → Cursor → Except Error (List CodePoint × Cursor)
  | 0, k => .ok ([], k)
  | fuel + 1, k =>
      if k.peek = quotes.mark then .ok ([], k.next)
      else do
        let (gap, k) ← quotedGap began k
        let (word, k) ← quotedWord quotes began (k.rest.length + 1) k
        let (rest, k) ← quotedRest quotes began fuel k
        return (pointsOf gap ++ word ++ rest, k)

/-- Reads a quoted scalar; the cursor stands at its opening quote. -/
def quotedScalar (quotes : Quotes) (k : Cursor) : Except Error (List CodePoint × Cursor) := do
  let began := k.mark
  let (word, k) ← quotedWord quotes began (k.rest.length + 1) k.next
  let (rest, k) ← quotedRest quotes began (k.rest.length + 1) k
  return (word ++ rest, k)

/-! ## Block scalars -/

/-- What becomes of the line breaks at the end of a block scalar. -/
inductive Chomping where
  | strip
  | clip
  | keep
  deriving DecidableEq, Repr

structure BlockHeader where
  chomping : Chomping
  indentation : Option Nat

def chompingOf? (c : Char) : Option Chomping :=
  if c = '+' then some .keep else if c = '-' then some .strip else none

def indentationDigit (began : Mark) (k : Cursor) : Except Error (Option Nat × Cursor) :=
  let c := k.peek
  if c = '0' then .error (.at .blockScalar began .zeroIndentation k.mark)
  else if '1' ≤ c && c ≤ '9' then .ok (some (c.toNat - '0'.toNat), k.next)
  else .ok (none, k)

/-- The indicators of a block scalar, in either order. -/
def blockIndicators (began : Mark) (k : Cursor) : Except Error (BlockHeader × Cursor) :=
  match chompingOf? k.peek with
  | some chomping => do
      let (indentation, k) ← indentationDigit began k.next
      return (⟨chomping, indentation⟩, k)
  | none => do
      let (indentation, k) ← indentationDigit began k
      match indentation, chompingOf? k.peek with
      | some _, some chomping => return (⟨chomping, indentation⟩, k.next)
      | _, _ => return (⟨.clip, indentation⟩, k)

/-- Reads the indicators behind `|` or `>`; only a blank or a line end may follow them. -/
def blockHeader (began : Mark) (k : Cursor) : Except Error (BlockHeader × Cursor) := do
  let (header, k) ← blockIndicators began k
  if endsWord k.peek then return (header, k)
  else .error (.at .blockScalar began (.noBlockIndicator k.peek) k.mark)

/-- Passes over blanks, a comment and the line break behind them. -/
def restOfLine (activity : Activity) (began : Mark) (k : Cursor) : Except Error Cursor :=
  let k := k.skipSpaces
  let k := if k.peek = '#' then k.skip (!endsLine ·) else k
  if endsLine k.peek then
    match k.lineBreak with
    | some (_, k) => .ok k
    | none => .ok k
  else .error (.at activity began (.noLineEnd k.peek) k.mark)

/-- The empty lines in front of a block scalar and the widest indentation among them and the first
line with content. -/
def leadingLines : Nat → Nat → Cursor → List Char × Nat × Cursor
  | 0, widest, k => ([], widest, k)
  | fuel + 1, widest, k =>
      if k.peek = ' ' then leadingLines fuel (max widest k.next.column) k.next
      else match k.lineBreak with
        | none => ([], widest, k)
        | some (c, k) =>
            let (further, widest, k) := leadingLines fuel widest k
            (c :: further, widest, k)

def skipIndentation (indent : Nat) : Nat → Cursor → Cursor
  | 0, k => k
  | fuel + 1, k => if k.column < indent && k.peek = ' ' then skipIndentation indent fuel k.next else k

/-- The empty lines in front of a line that is indented by `indent`. -/
def emptyLines (indent : Nat) : Nat → Cursor → List Char × Cursor
  | 0, k => ([], k)
  | fuel + 1, k =>
      let k := skipIndentation indent indent k
      match k.lineBreak with
      | none => ([], k)
      | some (c, k) =>
          let (further, k) := emptyLines indent fuel k
          (c :: further, k)

def breakText (c : Option Char) : List Char := c.toList

def isTextLine (c : Char) : Bool := !(c = ' ' || c = '\t')

/-- The lines of a block scalar; `pending` are the empty lines in front of the cursor. -/
def blockLines (isFolded : Bool) (chomping : Chomping) (indent : Nat) :
    Nat → List Char → Cursor → List Char × Cursor
  | 0, _, k => ([], k)
  | fuel + 1, pending, k =>
      let startsText := isTextLine k.peek
      let (line, k) := k.span (!endsLine ·)
      let (lineBreak, k) := match k.lineBreak with
        | some (c, k) => (some c, k)
        | none => (none, k)
      let (further, k) := emptyLines indent (k.rest.length + 1) k
      if k.column = indent && !k.rest.isEmpty then
        let joint :=
          if isFolded && lineBreak = some '\n' && startsText && isTextLine k.peek then
            if further.isEmpty then [' '] else []
          else breakText lineBreak
        let (rest, k) := blockLines isFolded chomping indent fuel further k
        (pending ++ line ++ joint ++ rest, k)
      else
        let tail := match chomping with
          | .strip => []
          | .clip => breakText lineBreak
          | .keep => breakText lineBreak ++ further
        (pending ++ line ++ tail, k)

/-- Reads a block scalar; the cursor stands at its indicator and `least` is the indentation that
its lines must have at least. -/
def blockScalar (isFolded : Bool) (least : Nat) (k : Cursor) : Except Error (List Char × Cursor) := do
  let began := k.mark
  let (header, k) ← blockHeader began k.next
  let k ← restOfLine .blockScalar began k
  let (indent, pending, k) := match header.indentation with
    | none =>
        let (pending, widest, k) := leadingLines (k.rest.length + 1) 0 k
        (max least widest, pending, k)
    | some increment =>
        let indent := least + increment - 1
        let (pending, k) := emptyLines indent (k.rest.length + 1) k
        (indent, pending, k)
  if k.column = indent && !k.rest.isEmpty then
    return blockLines isFolded header.chomping indent (k.rest.length + 1) pending k
  else if header.chomping = .keep then return (pending, k)
  else return ([], k)

end Arranger.Yaml
