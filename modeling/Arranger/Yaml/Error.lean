import Arranger.Text.Integer
import Arranger.Text.Utf8
import Arranger.Yaml.Problem

/-!
# Why a document cannot be read

Either the bytes are no text, or the text is no document, or a part of it has a form that denotes no
value.
-/

namespace Arranger.Yaml

/-- A date or a time of day that does not exist. -/
inductive TimeError where
  | year (value : Nat)
  | month
  | day
  | hour
  | minute
  | second
  | offset (shown : String)
  deriving DecidableEq, Repr

def TimeError.message : TimeError → String
  | .year value => s!"year {value} is out of range"
  | .month => "month must be in 1..12"
  | .day => "day is out of range for month"
  | .hour => "hour must be in 0..23"
  | .minute => "minute must be in 0..59"
  | .second => "second must be in 0..59"
  | .offset shown =>
      "offset must be a timedelta strictly between -timedelta(hours=24) and " ++
        s!"timedelta(hours=24), not {shown}."

inductive Error where
  | undecodable (cause : Text.DecodingError)
  | problem (p : Problem)
  | time (cause : TimeError)
  | integer (cause : Text.IntegerError)
  /-- Digits that are none of the base. -/
  | basedInteger (base : Nat) (text : Label)
  | number (text : Label)
  /-- A count by sixties with more places than a floating number can hold. -/
  | tooLarge
  | codePoint (code : Nat)
  /-- A tagged scalar that is none of the words of its tag. -/
  | word (text : Label)
  | noTimestamp
  /-- A mapping in the place of a time. -/
  | noTimeText
  | emptyNumber
  /-- A mapping that is its own default value. -/
  | endless
  deriving DecidableEq, Repr

def Error.at (activity : Activity) (began : Mark) (complaint : Complaint) (place : Mark) : Error :=
  .problem (.at (some (activity, began)) complaint place)

def Error.here (complaint : Complaint) (place : Mark) : Error :=
  .problem (.at none complaint place)

def Error.message (source : String) : Error → String
  | .undecodable cause => cause.message
  | .problem p => p.message source
  | .time cause => cause.message
  | .integer cause => cause.message
  | .basedInteger base text => s!"invalid literal for int() with base {base}: {Text.quotedLabel text}"
  | .number text => s!"could not convert string to float: {Text.quotedLabel text}"
  | .tooLarge => "int too large to convert to float"
  | .codePoint code =>
      if code < 0x80000000 then "chr() arg not in range(0x110000)"
      else "signed integer is greater than maximum"
  | .word text => Text.quotedLabel text
  | .noTimestamp => "'NoneType' object has no attribute 'groupdict'"
  | .noTimeText => "expected string or bytes-like object, got 'list'"
  | .emptyNumber => "string index out of range"
  | .endless => "maximum recursion depth exceeded"

end Arranger.Yaml
