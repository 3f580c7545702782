import Arranger.Datum.Display
import Arranger.Decimal.Reading
import Arranger.Yaml.Error
import Arranger.Yaml.Tag

/-!
# Values of scalars

The text of a scalar denotes a value of the kind that its tag names.  Underscores in numbers do not
count, a leading zero makes an integer octal, and colons separate counts by sixties.  A broken text
denotes no word, number or time; the message tells of the part of it that would have to.
-/

namespace Arranger.Yaml

open Text (splitOn)

/-! ## Words -/

def truthValue? (text : String) : Option Bool :=
  [("yes", true), ("no", false), ("true", true), ("false", false), ("on", true),
   ("off", false)].lookup (String.ofList (Text.lowered text.toList))

def loweredPoint : CodePoint → CodePoint
  | .char c => .char (Text.asciiLower c)
  | surrogate => surrogate

def loweredLabel (text : Label) : Label := .ofPoints (text.points.map loweredPoint)

def readTruth (text : Label) : Except Error Datum :=
  match text.text?.bind truthValue? with
  | some b => .ok (.bool b)
  | none => .error (.word (loweredLabel text))

/-! ## Numbers -/

def withoutUnderscores (s : List Char) : List Char := s.filter (· != '_')

/-- The sign of a number and what follows it; a number has at least one character. -/
def signAndSize (s : List Char) : Except Error (Bool × List Char) :=
  match s with
  | [] => .error .emptyNumber
  | _ => .ok (Text.splitSign s)

def baseLetter (base : Nat) : Char := if base = 2 then 'b' else if base = 8 then 'o' else 'x'

/-- The mark of a base may be repeated in front of its digits. -/
def dropBaseMark (base : Nat) (s : List Char) : List Char :=
  match s with
  | '0' :: c :: rest => if Text.asciiLower c = baseLetter base then rest else s
  | s => s

def basedDigit? (base : Nat) (c : Char) : Option Nat :=
  ((Text.digitValue? c).or (Text.hexValue? c)).filter (· < base)

def readBased (base : Nat) (s : List Char) : Except Error Int :=
  let (negative, body) := Text.splitSign (Text.trim Text.isWhiteSpace s)
  let digits := dropBaseMark base body
  match digits.mapM (basedDigit? base) with
  | some values =>
      if digits.isEmpty then .error (.basedInteger base (.text (String.ofList s)))
      else .ok (Text.signed negative (Text.ofDigits base values))
  | none => .error (.basedInteger base (.text (String.ofList s)))

def readDecimal (s : List Char) : Except Error Int :=
  match Text.readInteger (String.ofList s) with
  | .ok i => .ok i
  | .error cause => .error (.integer cause)

def readSize (s : List Char) : Except Error Int := do
  match s with
  | [] => .error .emptyNumber
  | ['0'] => return 0
  | '0' :: 'b' :: digits => readBased 2 digits
  | '0' :: 'x' :: digits => readBased 16 digits
  | '0' :: _ => readBased 8 s
  | _ =>
      if s.contains ':' then
        let parts ← (splitOn (· = ':') s).mapM readDecimal
        return parts.foldl (fun value part => 60 * value + part) 0
      else readDecimal s

def readIntText (s : List Char) : Except Error Datum := do
  let (negative, size) ← signAndSize (withoutUnderscores s)
  let value ← readSize size
  return .int (if negative then -value else value)

/-- The fault of a label that should be an integer. -/
def integerFault? (l : Label) : Option Error :=
  match Text.readInteger l.lossy, l with
  | .ok _, .text _ => none
  | .error cause, .text _ => some (.integer cause)
  | .error (.tooManyDigits count), .broken _ => some (.integer (.tooManyDigits count))
  | _, .broken _ => some (.basedInteger 10 l)

/-- The parts of a count by sixties. -/
def sixtiesOf (s : List CodePoint) : List Label :=
  (splitOn (· = .char ':') s).map Label.ofPoints

/-- A broken text without the underscores and the sign of a number. -/
def brokenSize (t : BrokenText) : List CodePoint :=
  match (Label.broken t).points.filter (· != .char '_') with
  | .char '-' :: rest => rest
  | .char '+' :: rest => rest
  | s => s

/-- The fault of a broken text that should be an integer. -/
def brokenInteger (t : BrokenText) : Error :=
  let size := brokenSize t
  match size with
  | .char '0' :: .char 'b' :: digits => .basedInteger 2 (.ofPoints digits)
  | .char '0' :: .char 'x' :: digits => .basedInteger 16 (.ofPoints digits)
  | .char '0' :: _ => .basedInteger 8 (.ofPoints size)
  | _ => ((sixtiesOf size).findSome? integerFault?).getD (.basedInteger 10 (.ofPoints size))

def readInt : Label → Except Error Datum
  | .text s => readIntText s.toList
  | .broken t => .error (brokenInteger t)

def readReal (s : List Char) : Except Error Float :=
  match Decimal.readNumber? s with
  | some x => .ok x
  | none => .error (.number (.text (String.ofList s)))

/-- The sum of counts by sixties, the last of them first. -/
def sixtiesSum (parts : List Float) : Except Error Float :=
  parts.reverse.zipIdx.foldlM (fun sum (part, place) =>
    match Decimal.ofInteger? (Nat.pow 60 place) with
    | some weight => .ok (sum + part * weight)
    | none => .error .tooLarge) 0.0

def readRealSize (s : List Char) : Except Error Float :=
  if s.contains ':' then do sixtiesSum (← (splitOn (· = ':') s).mapM readReal)
  else readReal s

def readFloatText (s : List Char) : Except Error Datum := do
  let (negative, size) ← signAndSize (Text.lowered (withoutUnderscores s))
  if size = ".inf".toList then return .float (Decimal.infinite negative)
  else if size = ".nan".toList then return .float Decimal.notANumber
  else
    let value ← readRealSize size
    return .float (if negative then -value else value)

/-- The fault of a label that should be a number. -/
def numberFault? (l : Label) : Option Error :=
  match l.text?.bind fun s => Decimal.readNumber? s.toList with
  | some _ => none
  | none => some (.number l)

/-- The fault of a broken text that should be a number. -/
def brokenNumber (t : BrokenText) : Error :=
  let size := (brokenSize t).map loweredPoint
  ((sixtiesOf size).findSome? numberFault?).getD (.number (.ofPoints size))

def readFloat : Label → Except Error Datum
  | .text s => readFloatText s.toList
  | .broken t => .error (brokenNumber t)

/-! ## Points in time -/

def isLeapYear (year : Nat) : Bool := year % 4 = 0 && (year % 100 != 0 || year % 400 = 0)

def daysInMonth (year month : Nat) : Nat :=
  if month = 2 then if isLeapYear year then 29 else 28
  else if month = 4 || month = 6 || month = 9 || month = 11 then 30
  else 31

def Date.new (year month day : Nat) : Except TimeError Date :=
  if year = 0 then .error (.year year)
  else if month = 0 || 12 < month then .error .month
  else if day = 0 || daysInMonth year month < day then .error .day
  else .ok ⟨year, month, day⟩

def naturalOf (digits : List Char) : Nat :=
  Text.ofDigits 10 (digits.map fun c => c.toNat - '0'.toNat)

/-- The offset of a zone in seconds; it is less than a day. -/
def zoneOffset : Bool × List Char × List Char → Except TimeError Int
  | (negative, hour, minute) =>
      let size := 3600 * naturalOf hour + 60 * naturalOf minute
      let offset := Text.signed negative size
      if size < 86400 then .ok offset else .error (.offset (spanShown offset))

def microseconds (fraction : List Char) : Nat :=
  let digits := fraction.take 6
  naturalOf (digits ++ List.replicate (6 - digits.length) '0')

def Timestamp.date (t : Timestamp) : Except TimeError Date :=
  Date.new (naturalOf t.year) (naturalOf t.month) (naturalOf t.day)

def Timestamp.moment (t : Timestamp) (clock : ClockTime) : Except TimeError Moment := do
  let offset ← match clock.zone with
    | none => pure none
    | some zone => some <$> zoneOffset zone
  let date ← t.date
  let hour := naturalOf clock.hour
  let minute := naturalOf clock.minute
  let second := naturalOf clock.second
  if 23 < hour then .error .hour
  else if 59 < minute then .error .minute
  else if 59 < second then .error .second
  else return ⟨date, hour, minute, second, microseconds clock.fraction, offset⟩

def Timestamp.value (t : Timestamp) : Except TimeError Datum :=
  match t.clock with
  | none => .date <$> t.date
  | some clock => .moment <$> t.moment clock

def readTime (text : Label) : Except Error Datum :=
  match text.text?.bind fun s => readTimestamp? (withoutLastBreak s) with
  | none => .error .noTimestamp
  | some t => match t.value with
    | .ok value => .ok value
    | .error cause => .error (.time cause)

/-! ## Bytes -/

def readBytes (place : Mark) (text : Label) : Except Error Datum :=
  match Text.Charset.ascii.encode text.points with
  | .error cause => .error (.here (.noAscii cause) place)
  | .ok encoded => match Text.decodeBase64 encoded with
    | .error cause => .error (.here (.noBase64 cause) place)
    | .ok bytes => .ok (.bytes bytes)

end Arranger.Yaml
