import Arranger.Datum.Display
import Arranger.Decimal.Layout
import Arranger.Yaml.Style

/-!
# Written documents

A value is written in block style: an entry or an item a line, the items of a list not indented
under their key, and an empty collection in brackets.
-/

namespace Arranger.Yaml

/-- Numbers in documents: as in programs, but a mantissa keeps its point before an exponent and
the numbers that are not finite have names of their own. -/
def documentNumber : Decimal.Layout :=
  { Decimal.plain with
    pointBeforeExponent := true, infinity := ".inf", negativeInfinity := "-.inf", nan := ".nan" }

/-- Writes a value that fits on a line or a text, from a column on. -/
def writeScalar (mayFold : Bool) (column indent : Nat) : Datum → List Char
  | .null => "null".toList
  | .bool b => (if b then "true" else "false").toList
  | .float x => (documentNumber.write x).toList
  | .text s => writeText mayFold column indent s.toList
  | .brokenText t => writeDouble mayFold column indent (Label.broken t).points
  | .list _ => "[]".toList
  | .map _ => "\x7b\x7d".toList
  | other => other.bareText.toList

mutual

/-- Writes the value of an entry behind its colon, in a mapping that is indented by `indent`. -/
def writeEntryValue (column indent : Nat) : Datum → List Char
  | .list (item :: rest) => '\n' :: spaces indent ++ writeItems indent (item :: rest)
  | .map (entry :: rest) => '\n' :: spaces (indent + 2) ++ writeEntries (indent + 2) (entry :: rest)
  | value => ' ' :: writeScalar true (column + 1) (indent + 2) value

/-- Writes an item behind its dash, in a list that is indented by `indent`. -/
def writeItem (indent : Nat) : Datum → List Char
  | .list (item :: rest) => ' ' :: writeItems (indent + 2) (item :: rest)
  | .map (entry :: rest) => ' ' :: writeEntries (indent + 2) (entry :: rest)
  | value => ' ' :: writeScalar true (indent + 2) (indent + 2) value

/-- Writes the items of a list; the first one's line has been indented already. -/
def writeItems (indent : Nat) : List Datum → List Char
  | [] => []
  | [item] => '-' :: writeItem indent item
  | item :: rest =>
      '-' :: writeItem indent item ++ '\n' :: spaces indent ++ writeItems indent rest

/-- Writes the entries of a mapping; the first one's line has been indented already. -/
def writeEntries (indent : Nat) : List (Datum × Datum) → List Char
  | [] => []
  | [(key, value)] =>
      let name := writeScalar false indent (indent + 2) key
      name ++ ':' :: writeEntryValue (indent + name.length + 1) indent value
  | (key, value) :: rest =>
      let name := writeScalar false indent (indent + 2) key
      name ++ ':' :: writeEntryValue (indent + name.length + 1) indent value ++
        '\n' :: spaces indent ++ writeEntries indent rest

end

/-- The text of a document. -/
def write : Datum → String
  | .list (item :: rest) => String.ofList (writeItems 0 (item :: rest) ++ ['\n'])
  | .map (entry :: rest) => String.ofList (writeEntries 0 (entry :: rest) ++ ['\n'])
  | value => String.ofList (writeScalar true 0 2 value ++ ['\n'])

end Arranger.Yaml
