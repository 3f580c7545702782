import Arranger.Text.Blank
import Arranger.Text.Digit
import Arranger.Text.Hex

/-!
# Tags

A tag says which kind of value a node stands for.  A plain scalar without a tag gets one from the
form of its text: words for truth values and for nothing, numbers in several notations, points in
time, and the two signs for merging and for a default value.  All other scalars are texts.
-/

namespace Arranger.Yaml

open Text (isAsciiDigit splitOn)

inductive Tag where
  | null
  | bool
  | int
  | float
  | binary
  | timestamp
  | omap
  | pairs
  | set
  | str
  | seq
  | map
  /-- The key under which other mappings are merged in. -/
  | merge
  /-- The key of a default value. -/
  | value
  | other (name : String)
  deriving DecidableEq, Repr

def standardTags : List (String × Tag) :=
  [("null", .null), ("bool", .bool), ("int", .int), ("float", .float), ("binary", .binary),
   ("timestamp", .timestamp), ("omap", .omap), ("pairs", .pairs), ("set", .set), ("str", .str),
   ("seq", .seq), ("map", .map), ("merge", .merge), ("value", .value)]

def standardHandle : String := "tag:yaml.org,2002:"

def Tag.ofName (name : String) : Tag :=
  ((standardTags.map fun (short, tag) => (standardHandle ++ short, tag)).lookup name).getD
    (.other name)

def Tag.name (tag : Tag) : String :=
  match tag with
  | .other name => name
  | tag => standardHandle ++ (((standardTags.find? (·.2 = tag)).map (·.1)).getD "")

/-- Whether values of the kind are collections. -/
def Tag.isCollection (tag : Tag) : Bool :=
  tag = .seq || tag = .map || tag = .set || tag = .omap || tag = .pairs

/-! ## Forms of scalars -/

def isDigitOrGap (c : Char) : Bool := isAsciiDigit c || c = '_'

/-- A digit, and then digits and underscores. -/
def isDigitRun : List Char → Bool
  | [] => false
  | c :: rest => isAsciiDigit c && rest.all isDigitOrGap

def dropSign : List Char → List Char
  | '-' :: rest => rest
  | '+' :: rest => rest
  | s => s

/-- A count below sixty, in one digit or in two. -/
def isSixtieth : List Char → Bool
  | [a] => isAsciiDigit a
  | [a, b] => '0' ≤ a && a ≤ '5' && isAsciiDigit b
  | _ => false

/-- Counts separated by colons, the first of them of any size. -/
def isSexagesimal (leading : List Char → Bool) (s : List Char) : Bool :=
  match splitOn (· = ':') s with
  | first :: part :: parts => leading first && (part :: parts).all isSixtieth
  | _ => false

def isTruthWord (s : String) : Bool :=
  ["yes", "Yes", "YES", "no", "No", "NO", "true", "True", "TRUE", "false", "False", "FALSE", "on",
   "On", "ON", "off", "Off", "OFF"].contains s

def isNullWord (s : String) : Bool := ["", "~", "null", "Null", "NULL"].contains s

/-- A signed exponent, or nothing. -/
def isExponent : List Char → Bool
  | [] => true
  | mark :: sign :: digits =>
      (mark = 'e' || mark = 'E') && (sign = '-' || sign = '+') && !digits.isEmpty &&
        digits.all isAsciiDigit
  | _ => false

/-- What follows the point of a number. -/
def isFraction (s : List Char) : Bool := isExponent (s.dropWhile isDigitOrGap)

def isInfinityWord (s : List Char) : Bool :=
  s = ".inf".toList || s = ".Inf".toList || s = ".INF".toList

def isNanWord (s : List Char) : Bool :=
  s = ".nan".toList || s = ".NaN".toList || s = ".NAN".toList

/-- Digits, a point and a fraction; counts by sixties with a point; a fraction alone, which takes no
sign; or a word. -/
def isFloatForm (s : List Char) : Bool :=
  let body := dropSign s
  let whole := body.takeWhile (· != '.')
  isInfinityWord body || isNanWord s ||
    match body.dropWhile (· != '.') with
    | [] => false
    | _ :: fraction =>
        (isDigitRun whole && isFraction fraction) ||
          (isSexagesimal isDigitRun whole && fraction.all isDigitOrGap) ||
          (whole.isEmpty && s = body && isDigitRun (fraction.take 1) && isFraction fraction)

def startsAboveZero (s : List Char) : Bool := isDigitRun s && s.head? != some '0'

/-- Binary, octal, decimal or hexadecimal digits, or counts by sixties. -/
def isIntForm (s : List Char) : Bool :=
  let body := dropSign s
  match body with
  | ['0'] => true
  | '0' :: 'b' :: digits =>
      !digits.isEmpty && digits.all fun c => c = '0' || c = '1' || c = '_'
  | '0' :: 'x' :: digits =>
      !digits.isEmpty && digits.all fun c => (Text.hexValue? c).isSome || c = '_'
  | '0' :: digits => digits.all fun c => ('0' ≤ c && c ≤ '7') || c = '_'
  | body => startsAboveZero body || isSexagesimal startsAboveZero body

/-! ## Points in time -/

structure ClockTime where
  hour : List Char
  minute : List Char
  second : List Char
  fraction : List Char
  /-- The offset from universal time: whether it is negative, hours and minutes. -/
  zone : Option (Bool × List Char × List Char)

structure Timestamp where
  year : List Char
  month : List Char
  day : List Char
  clock : Option ClockTime

/-- Reads between `least` and `most` digits, as many as there are. -/
def readDigits (least most : Nat) (s : List Char) : Option (List Char × List Char) :=
  let run := (s.takeWhile isAsciiDigit).take most
  if least ≤ run.length then some (run, s.drop run.length) else none

def readSign (c : Char) : List Char → Option (List Char)
  | [] => none
  | d :: rest => if c = d then some rest else none

def isSpaceOrTab (c : Char) : Bool := c = ' ' || c = '\t'

def readZone (s : List Char) : Option (Option (Bool × List Char × List Char)) :=
  match s with
  | [] => some none
  | s => match s.dropWhile isSpaceOrTab with
    | ['Z'] => some (some (false, ['0'], ['0']))
    | sign :: rest =>
        if sign = '-' || sign = '+' then do
          let (hour, rest) ← readDigits 1 2 rest
          if rest.isEmpty then return some (sign = '-', hour, ['0'])
          else
            let (minute, rest) ← readDigits 2 2 (← readSign ':' rest)
            if rest.isEmpty then return some (sign = '-', hour, minute) else none
        else none
    | [] => none

def readClock (s : List Char) : Option ClockTime := do
  let (hour, s) ← readDigits 1 2 s
  let (minute, s) ← readDigits 2 2 (← readSign ':' s)
  let (second, s) ← readDigits 2 2 (← readSign ':' s)
  let (fraction, s) := match s with
    | '.' :: rest => (rest.takeWhile isAsciiDigit, rest.dropWhile isAsciiDigit)
    | s => ([], s)
  return ⟨hour, minute, second, fraction, ← readZone s⟩

/-- What separates a date from a time of day: a letter, or blanks. -/
def dropTimeMark : List Char → Option (List Char)
  | [] => none
  | c :: rest =>
      if c = 'T' || c = 't' then some rest
      else if isSpaceOrTab c then some (rest.dropWhile isSpaceOrTab)
      else none

def readTimestamp? (s : List Char) : Option Timestamp := do
  let (year, s) ← readDigits 4 4 s
  let (month, s) ← readDigits 1 2 (← readSign '-' s)
  let (day, s) ← readDigits 1 2 (← readSign '-' s)
  if s.isEmpty then return ⟨year, month, day, none⟩
  else return ⟨year, month, day, some (← readClock (← dropTimeMark s))⟩

/-- A plain text is a point in time only if a date without a time of day has two digits for the
month and for the day. -/
def isTimestampForm (s : List Char) : Bool :=
  match readTimestamp? s with
  | none => false
  | some t => t.clock.isSome || (t.month.length = 2 && t.day.length = 2)

/-! ## Tags from forms -/

/-- A line break at the end does not count for the form of a scalar. -/
def withoutLastBreak (s : String) : List Char :=
  let chars := s.toList
  if chars.getLast? = some '\n' && 1 < chars.length then chars.dropLast else chars

/-- The tag of a plain scalar without a tag. -/
def implicitTag (text : String) : Tag :=
  let chars := withoutLastBreak text
  let form := String.ofList chars
  if isTruthWord form then .bool
  else if isFloatForm chars then .float
  else if isIntForm chars then .int
  else if form = "<<" then .merge
  else if isNullWord form then .null
  else if isTimestampForm chars then .timestamp
  else if form = "=" then .value
  else if form = "!" || form = "&" || form = "*" then .other (standardHandle ++ "yaml")
  else .str

theorem implicitTag_empty : implicitTag "" = .null := by decide +kernel

end Arranger.Yaml
