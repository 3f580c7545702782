import Arranger.Datum.Display

/-!
# Issues with a document

A document that does not fit its schema has issues, each with a place, a cause and the value found
there.  A rejection lists them all under the title of what was to be read.
-/

namespace Arranger.Schema

/-- A step from a value to a part of it. -/
inductive Step where
  | field (name : String)
  | index (i : Nat)
  deriving DecidableEq, Repr

def Step.text : Step → String
  | .field name => name
  | .index i => toString i

inductive Cause where
  | missing
  | noText
  | brokenText
  | emptyText
  | noList
  | noInteger
  | unreadableInteger
  | hugeInteger
  | fraction
  | notFinite
  | below (least : Int)
  | above (most : Int)
  | noNumber
  | unreadableNumber
  | literal (expected : String)
  | noInstance (title : String)
  | noRecord
  | noKind
  | unknownKind (kind : String) (expected : List String)
  deriving DecidableEq, Repr

def Cause.code : Cause → String
  | .missing => "missing"
  | .noText => "string_type"
  | .brokenText => "string_unicode"
  | .emptyText => "string_too_short"
  | .noList => "list_type"
  | .noInteger => "int_type"
  | .unreadableInteger => "int_parsing"
  | .hugeInteger => "int_parsing_size"
  | .fraction => "int_from_float"
  | .notFinite => "finite_number"
  | .below _ => "greater_than_equal"
  | .above _ => "less_than_equal"
  | .noNumber => "float_type"
  | .unreadableNumber => "float_parsing"
  | .literal _ => "literal_error"
  | .noInstance _ => "model_type"
  | .noRecord => "model_attributes_type"
  | .noKind => "union_tag_not_found"
  | .unknownKind _ _ => "union_tag_invalid"

def Cause.message : Cause → String
  | .missing => "Field required"
  | .noText => "Input should be a valid string"
  | .brokenText =>
      "Input should be a valid string, unable to parse raw data as a unicode string"
  | .emptyText => "String should have at least 1 character"
  | .noList => "Input should be a valid list"
  | .noInteger => "Input should be a valid integer"
  | .unreadableInteger =>
      "Input should be a valid integer, unable to parse string as an integer"
  | .hugeInteger => "Unable to parse input string as an integer, exceeded maximum size"
  | .fraction => "Input should be a valid integer, got a number with a fractional part"
  | .notFinite => "Input should be a finite number"
  | .below least => s!"Input should be greater than or equal to {least}"
  | .above most => s!"Input should be less than or equal to {most}"
  | .noNumber => "Input should be a valid number"
  | .unreadableNumber => "Input should be a valid number, unable to parse string as a number"
  | .literal expected => s!"Input should be '{expected}'"
  | .noInstance title => s!"Input should be a valid dictionary or instance of {title}"
  | .noRecord => "Input should be a valid dictionary or object to extract fields from"
  | .noKind => "Unable to extract tag using discriminator 'kind'"
  | .unknownKind kind expected =>
      s!"Input tag '{kind}' found using 'kind' does not match any of the expected tags: " ++
        ", ".intercalate (expected.map fun name => s!"'{name}'")

structure Issue where
  place : List Step
  cause : Cause
  input : Datum

/-- The longest front part of a text that takes at most `limit` bytes. -/
def frontBytes : Nat → List Char → List Char
  | _, [] => []
  | limit, c :: rest =>
      if c.utf8Size ≤ limit then c :: frontBytes (limit - c.utf8Size) rest else []

def byteCount (s : List Char) : Nat := (String.ofList s).utf8ByteSize

def shownLimit : Nat := 50

/-- Shows a value in at most about fifty bytes: of a longer text the middle is left out. -/
def abridged (shown : String) : String :=
  let chars := shown.toList
  if byteCount chars ≤ shownLimit then shown
  else
    let front := frontBytes 25 chars
    let back := (frontBytes 24 chars.reverse).reverse
    String.ofList (front ++ '.' :: '.' :: '.' :: back)

def Issue.lines (issue : Issue) : List String :=
  let place := ".".intercalate (issue.place.map Step.text)
  let input := abridged issue.input.shown
  let detail := s!"  {issue.cause.message} [type={issue.cause.code}, input_value={input}, " ++
    s!"input_type={issue.input.kind}]"
  (if issue.place.isEmpty then [] else [place]) ++ [detail]

structure Rejection where
  title : String
  issues : List Issue

def Rejection.message (r : Rejection) : String :=
  let count := r.issues.length
  let noun := if count = 1 then "error" else "errors"
  "\n".intercalate (s!"{count} validation {noun} for {r.title}" :: r.issues.flatMap Issue.lines)

end Arranger.Schema
