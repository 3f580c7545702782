import Arranger.Text.Letter
import Arranger.Text.Digit
import Arranger.Yaml.Token.Scalar

/-!
# Names, tags and directives

An anchor or an alias has a name.  A tag is written in full, with a handle, or with the primary
handle.  A directive states the version of the format or replaces a handle; others are ignored.
-/

namespace Arranger.Yaml

def isNameChar (c : Char) : Bool :=
  Text.isAsciiDigit c || Text.isLetter c || c = '-' || c = '_'

/-- What may follow the name of an anchor or an alias. -/
def endsName (c : Char) : Bool := isGap c || "?:,]\x7d%@`".toList.contains c

/-- Reads the name behind an indicator. -/
def anchorName (activity : Activity) (k : Cursor) : Except Error (String × Cursor) :=
  let began := k.mark
  let (name, k) := k.next.span isNameChar
  if name.isEmpty || !endsName k.peek then .error (.at activity began (.noName k.peek) k.mark)
  else .ok (String.ofList name, k)

def isUriChar (c : Char) : Bool :=
  isNameChar c || ";/?:@&=+$,.!~*'()[]%".toList.contains c

/-- The bytes of a run of escapes in a tag. -/
def uriBytes (activity : Activity) (began : Mark) :
    Nat → Cursor → Except Error (List UInt8 × Cursor)
  | 0, k => .ok ([], k)
  | fuel + 1, k =>
      if k.peek != '%' then .ok ([], k)
      else
        let k := k.next
        match Text.hexValue? k.peek, Text.hexValue? (k.peekAt 1) with
        | some high, some low => do
            let (rest, k) ← uriBytes activity began fuel (k.advance 2)
            return (UInt8.ofNat (16 * high + low) :: rest, k)
        | none, _ => .error (.at activity began (.noUriEscape k.peek) k.mark)
        | some _, none => .error (.at activity began (.noUriEscape (k.peekAt 1)) k.mark)

def uriEscapes (activity : Activity) (k : Cursor) (began : Mark) :
    Except Error (List Char × Cursor) := do
  let place := k.mark
  let (bytes, k) ← uriBytes activity began (k.rest.length + 1) k
  match String.fromUTF8? (ByteArray.mk bytes.toArray) with
  | some s => return (s.toList, k)
  | none => .error (.at activity began .badUriBytes place)

def uriChars (activity : Activity) (began : Mark) : Nat → Cursor → Except Error (List Char × Cursor)
  | 0, k => .ok ([], k)
  | fuel + 1, k => do
      let (run, k) := k.span fun c => isUriChar c && c != '%'
      if k.peek = '%' then
        let (escaped, k) ← uriEscapes activity k began
        let (rest, k) ← uriChars activity began fuel k
        return (run ++ escaped ++ rest, k)
      else return (run, k)

/-- Reads the characters of a tag or of the replacement of a handle. -/
def tagUri (scanning reading : Activity) (began : Mark) (k : Cursor) :
    Except Error (String × Cursor) := do
  let (uri, after) ← uriChars scanning began (k.rest.length + 1) k
  if after.mark.index = k.mark.index then
    .error (.at reading began (.noUri after.peek) after.mark)
  else return (String.ofList uri, after)

/-- Reads a handle: `!`, `!!` or a name between exclamation marks. -/
def tagHandle (activity : Activity) (began : Mark) (k : Cursor) : Except Error (String × Cursor) :=
  if k.peek != '!' then .error (.at activity began (.noBang k.peek) k.mark)
  else
    let inner := k.next
    if inner.peek = ' ' then .ok ("!", inner)
    else
      let (name, k) := inner.span isNameChar
      if k.peek != '!' then .error (.at activity began (.noBang k.peek) k.mark)
      else .ok (String.ofList ('!' :: (name ++ ['!'])), k.next)

/-- Whether an exclamation mark follows within the word. -/
def hasHandle : List Char → Bool
  | [] => false
  | c :: rest => c = '!' || (!endsWord c && hasHandle rest)

def tagBody (began : Mark) (k : Cursor) : Except Error ((Option String × String) × Cursor) := do
  let c := k.peekAt 1
  if c = '<' then
    let (suffix, k) ← tagUri .tag .readingTag began (k.advance 2)
    if k.peek != '>' then .error (.at .readingTag began (.noTagEnd k.peek) k.mark)
    else return ((none, suffix), k.next)
  else if isGap c then return ((none, "!"), k.next)
  else if hasHandle (k.rest.drop 1) then
    let (handle, k) ← tagHandle .tag began k
    let (suffix, k) ← tagUri .tag .readingTag began k
    return ((some handle, suffix), k)
  else
    let (suffix, k) ← tagUri .tag .readingTag began k.next
    return ((some "!", suffix), k)

/-- Reads a tag; a blank or a line end must follow it. -/
def tag (k : Cursor) : Except Error ((Option String × String) × Cursor) := do
  let began := k.mark
  let (parts, k) ← tagBody began k
  if endsWord k.peek then return (parts, k)
  else .error (.at .tag began (.noSpace k.peek) k.mark)

def directiveNumber (began : Mark) (k : Cursor) : Except Error (Nat × Cursor) := do
  let (digits, after) := k.span Text.isAsciiDigit
  if digits.isEmpty then .error (.at .directive began (.noDigit k.peek) k.mark)
  else match Text.readNatural digits with
    | .ok n => return (n, after)
    | .error cause => .error (.integer cause)

def versionDirective (began : Mark) (k : Cursor) : Except Error (Directive × Cursor) := do
  let (major, k) ← directiveNumber began k.skipSpaces
  if k.peek != '.' then .error (.at .directive began (.noDigitOrPoint k.peek) k.mark)
  else
    let (minor, k) ← directiveNumber began k.next
    if endsWord k.peek then return (.version major minor, k)
    else .error (.at .directive began (.noDigitOrSpace k.peek) k.mark)

def handleDirective (began : Mark) (k : Cursor) : Except Error (Directive × Cursor) := do
  let (handle, k) ← tagHandle .directive began k.skipSpaces
  if k.peek != ' ' then .error (.at .directive began (.noSpace k.peek) k.mark)
  else
    let (replacement, k) ← tagUri .directive .readingDirective began k.skipSpaces
    if endsWord k.peek then return (.handle handle replacement, k)
    else .error (.at .directive began (.noSpace k.peek) k.mark)

/-- Reads a directive with the rest of its line; gives its place of ending too. -/
def directive (k : Cursor) : Except Error ((Directive × Mark) × Cursor) := do
  let began := k.mark
  let (name, k) := k.next.span isNameChar
  if name.isEmpty || !endsWord k.peek then .error (.at .directive began (.noName k.peek) k.mark)
  else
    let (content, k) ←
      if name = "YAML".toList then versionDirective began k
      else if name = "TAG".toList then handleDirective began k
      else Except.ok (Directive.reserved (String.ofList name), k)
    let stop := k.mark
    let k := match content with
      | .reserved _ => k.skip (!endsLine ·)
      | _ => k
    return ((content, stop), ← restOfLine .directive began k)

end Arranger.Yaml
