/-!
# Places in a text

A cursor is what remains of a text together with the place it starts at.  Looking beyond the end
shows U+0000, which no document may hold.
-/

namespace Arranger.Yaml

/-- A place in a text: the characters before it, and its line and column counted from zero. -/
structure Mark where
  index : Nat
  line : Nat
  column : Nat
  deriving DecidableEq, Repr, Inhabited

def Mark.start : Mark := ⟨0, 0, 0⟩

def ending : Char := '\x00'

def byteOrderMark : Char := '\ufeff'

def isBreak (c : Char) : Bool :=
  c = '\r' || c = '\n' || c = '\x85' || c = '\u2028' || c = '\u2029'

/-- A line break or the end of the text. -/
def endsLine (c : Char) : Bool := c = ending || isBreak c

/-- A space, a line break or the end of the text. -/
def endsWord (c : Char) : Bool := c = ' ' || endsLine c

/-- A space, a tab, a line break or the end of the text. -/
def isGap (c : Char) : Bool := c = '\t' || endsWord c

/-- The place after a character; a carriage return before a line feed ends no line of its own. -/
def Mark.after (m : Mark) (c next : Char) : Mark :=
  if c = '\n' || c = '\x85' || c = '\u2028' || c = '\u2029' || (c = '\r' && next != '\n') then
    ⟨m.index + 1, m.line + 1, 0⟩
  else if c = byteOrderMark then ⟨m.index + 1, m.line, m.column⟩
  else ⟨m.index + 1, m.line, m.column + 1⟩

structure Cursor where
  rest : List Char
  mark : Mark
  deriving Inhabited

namespace Cursor

def peek (k : Cursor) : Char := k.rest.headD ending

def peekAt (k : Cursor) (n : Nat) : Char := k.rest[n]?.getD ending

def column (k : Cursor) : Nat := k.mark.column

def next (k : Cursor) : Cursor :=
  match k.rest with
  | [] => k
  | c :: rest => ⟨rest, k.mark.after c (rest.headD ending)⟩

def advance : Nat → Cursor → Cursor
  | 0, k => k
  | n + 1, k => advance n k.next

def spanFrom (p : Char → Bool) : List Char → Mark → List Char × Cursor
  | [], m => ([], ⟨[], m⟩)
  | c :: rest, m =>
      if p c then
        let (taken, k) := spanFrom p rest (m.after c (rest.headD ending))
        (c :: taken, k)
      else ([], ⟨c :: rest, m⟩)

/-- The longest run of characters of a class, and the cursor behind it. -/
def span (p : Char → Bool) (k : Cursor) : List Char × Cursor := spanFrom p k.rest k.mark

def skip (p : Char → Bool) (k : Cursor) : Cursor := (k.span p).2

def skipSpaces (k : Cursor) : Cursor := k.skip (· = ' ')

/-- A line break, read as a line feed unless it is a line or paragraph separator. -/
def lineBreak (k : Cursor) : Option (Char × Cursor) :=
  match k.rest with
  | '\r' :: '\n' :: _ => some ('\n', k.next.next)
  | c :: _ =>
      if c = '\u2028' || c = '\u2029' then some (c, k.next)
      else if isBreak c then some ('\n', k.next)
      else none
  | [] => none

/-- Whether a document marker stands here: three dashes or points, and a gap. -/
def atDocumentMarker (k : Cursor) : Bool :=
  match k.rest with
  | '-' :: '-' :: '-' :: rest => isGap (rest.headD ending)
  | '.' :: '.' :: '.' :: rest => isGap (rest.headD ending)
  | _ => false

end Cursor

end Arranger.Yaml
