import Arranger.Text.Label
import Arranger.Yaml.Tag

/-!
# Styles of written texts

A text is written plainly if it reads back as the same text, else between single quotes if it
holds printable ASCII characters and line breaks only, and no blank beside a break, else between
double quotes with escapes.  Texts beyond the line width are folded.
-/

namespace Arranger.Yaml

inductive Style where
  | plain
  | single
  | double
  deriving DecidableEq, Repr

def isPlainAscii (c : Char) : Bool := ' ' ≤ c && c ≤ '~'

def isSpaceOrBreak (c : Char) : Bool := c = ' ' || c = '\n'

/-- A character that only an escape can write. -/
def needsEscape (c : Char) : Bool := c != '\n' && !isPlainAscii c

def startsDocumentMarker : List Char → Bool
  | '-' :: '-' :: '-' :: _ => true
  | '.' :: '.' :: '.' :: _ => true
  | _ => false

/-- Whether a first character with the given next one would be taken as an indicator. -/
def isLeadingIndicator (c : Char) (rest : List Char) : Bool :=
  "#,[]\x7b\x7d&*!|>'\"%@`".toList.contains c ||
    ((c = '?' || c = ':' || c = '-') && rest.head?.all isSpaceOrBreak)

/-- Whether a colon before a blank or a number sign behind one stands in a text. -/
def hasInnerIndicator (previous : Char) : List Char → Bool
  | [] => false
  | c :: rest =>
      (c = ':' && rest.head?.all isSpaceOrBreak) || (c = '#' && isSpaceOrBreak previous) ||
        hasInnerIndicator c rest

def hasIndicator : List Char → Bool
  | [] => false
  | c :: rest =>
      startsDocumentMarker (c :: rest) || isLeadingIndicator c rest || hasInnerIndicator c rest

/-- Whether two given characters stand side by side. -/
def hasNeighbours (a b : Char) : List Char → Bool
  | x :: y :: rest => (x = a && y = b) || hasNeighbours a b (y :: rest)
  | _ => false

def allowsPlain (s : List Char) : Bool :=
  !s.contains '\n' && s.head? != some ' ' && s.getLast? != some ' ' && !hasIndicator s &&
    implicitTag (String.ofList s) = .str

def styleOf (s : List Char) : Style :=
  if s.any needsEscape || hasNeighbours ' ' '\n' s || hasNeighbours '\n' ' ' s then .double
  else if allowsPlain s then .plain
  else .single

/-! ## Folding -/

def lineWidth : Nat := 80

def spaces (n : Nat) : List Char := List.replicate n ' '

inductive RunKind where
  | word
  | spaces
  | breaks
  deriving DecidableEq, Repr

def RunKind.of (c : Char) : RunKind :=
  if c = ' ' then .spaces else if c = '\n' then .breaks else .word

/-- The runs of equal kinds of characters, in order. -/
def runs : List Char → List (RunKind × List Char)
  | [] => []
  | c :: rest => match runs rest with
    | (kind, run) :: more =>
        if kind = RunKind.of c then (kind, c :: run) :: more else (.of c, [c]) :: (kind, run) :: more
    | [] => [(.of c, [c])]

def doubleQuotes (run : List Char) : List Char :=
  run.flatMap fun c => if c = '\'' then [c, c] else [c]

/-- Writes runs from a column on.  A single space beyond the width becomes a line end, unless it is
the first or the last run, and line breaks are doubled. -/
def writeRuns (mayFold : Bool) (word : List Char → List Char) (indent : Nat) :
    Bool → Nat → List (RunKind × List Char) → List Char
  | _, _, [] => []
  | isFirst, column, (kind, run) :: rest =>
      match kind with
      | .word => word run ++ writeRuns mayFold word indent false (column + (word run).length) rest
      | .breaks => '\n' :: run ++ spaces indent ++ writeRuns mayFold word indent false indent rest
      | .spaces =>
          if mayFold && run.length = 1 && lineWidth < column && !isFirst && !rest.isEmpty then
            '\n' :: spaces indent ++ writeRuns mayFold word indent false indent rest
          else run ++ writeRuns mayFold word indent false (column + run.length) rest

def writePlain (mayFold : Bool) (column indent : Nat) (s : List Char) : List Char :=
  writeRuns mayFold id indent true column (runs s)

def writeSingle (mayFold : Bool) (column indent : Nat) (s : List Char) : List Char :=
  '\'' :: writeRuns mayFold doubleQuotes indent true (column + 1) (runs s) ++ ['\'']

/-! ## Escapes -/

def escapeLetter? (c : Char) : Option Char :=
  [('\x00', '0'), ('\x07', 'a'), ('\x08', 'b'), ('\t', 't'), ('\n', 'n'), ('\x0b', 'v'),
   ('\x0c', 'f'), ('\r', 'r'), ('\x1b', 'e'), ('"', '"'), ('\\', '\\'), ('\x85', 'N'),
   ('\xa0', '_'), ('\u2028', 'L'), ('\u2029', 'P')].lookup c

/-- The escape of a character that does not stand for itself between double quotes. -/
def doubleEscape? (c : Char) : Option (List Char) :=
  if isPlainAscii c && c != '"' && c != '\\' then none
  else match escapeLetter? c with
    | some letter => some ['\\', letter]
    | none =>
        let n := c.toNat
        if n < 0x100 then some ('\\' :: 'x' :: Text.hex .upper 2 n)
        else if n < 0x10000 then some ('\\' :: 'u' :: Text.hex .upper 4 n)
        else some ('\\' :: 'U' :: Text.hex .upper 8 n)

/-- What a code point is written as between double quotes: a character as itself or as an escape,
a surrogate as an escape. -/
def doubleForm : CodePoint → Char ⊕ List Char
  | .char c => match doubleEscape? c with
    | none => .inl c
    | some escape => .inr escape
  | .surrogate half => .inr ('\\' :: 'u' :: Text.hex .upper 4 (CodePoint.surrogate half).toNat)

/-- An escaped line end, with a mark in front of a space that begins the next line. -/
def escapedLineEnd (indent : Nat) (next : Option CodePoint) : List Char :=
  '\\' :: '\n' :: spaces indent ++ (if next = some (.char ' ') then ['\\'] else [])

/-- The column behind an escaped line end. -/
def columnBehind (indent : Nat) (next : Option CodePoint) : Nat :=
  if next = some (.char ' ') then indent + 1 else indent

/-- Writes what stands between double quotes.  Beyond the width a line may end in front of a space,
behind an escape and in front of the character behind an escape. -/
def writeEscaped (mayFold : Bool) (indent : Nat) : Bool → Bool → Nat → List CodePoint → List Char
  | _, _, _, [] => []
  | isFirst, isFresh, column, p :: rest =>
      let mayEnd := mayFold && !isFirst && !rest.isEmpty
      match doubleForm p with
      | .inr escape =>
          let after := column + escape.length
          if mayEnd && lineWidth + 1 < after then
            escape ++ escapedLineEnd indent rest.head? ++
              writeEscaped mayFold indent false true (columnBehind indent rest.head?) rest
          else escape ++ writeEscaped mayFold indent false true after rest
      | .inl c =>
          if mayEnd && (c = ' ' || isFresh) && lineWidth < column then
            escapedLineEnd indent (some p) ++
              c :: writeEscaped mayFold indent false false (columnBehind indent (some p) + 1) rest
          else c :: writeEscaped mayFold indent false false (column + 1) rest

def writeDouble (mayFold : Bool) (column indent : Nat) (points : List CodePoint) : List Char :=
  '"' :: writeEscaped mayFold indent true true (column + 1) points ++ ['"']

/-- Writes a text from a column on, in the style it needs; further lines are indented. -/
def writeText (mayFold : Bool) (column indent : Nat) (s : List Char) : List Char :=
  match styleOf s with
  | .plain => writePlain mayFold column indent s
  | .single => writeSingle mayFold column indent s
  | .double => writeDouble mayFold column indent (pointsOf s)

end Arranger.Yaml
