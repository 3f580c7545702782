import Arranger.Text.Hex
import Arranger.Text.Label
import Arranger.Text.Printable

/-!
# Quoted text

A message quotes a text between single quotes, or between double quotes when the text holds
single quotes only.  The backslash and the chosen quote are escaped, line ends and tabs have
their letters, and every other unprintable character and every surrogate is written by its code
point.
-/

namespace Arranger.Text

def quoteMark (s : List Char) : Char :=
  if s.contains '\'' && !s.contains '"' then '"' else '\''

def escaped (mark c : Char) : List Char :=
  if c = '\\' then ['\\', '\\']
  else if c = mark then ['\\', c]
  else if c = '\n' then ['\\', 'n']
  else if c = '\r' then ['\\', 'r']
  else if c = '\t' then ['\\', 't']
  else if isPrintable c then [c]
  else if c.toNat < 0x100 then '\\' :: 'x' :: hex .lower 2 c.toNat
  else if c.toNat < 0x10000 then '\\' :: 'u' :: hex .lower 4 c.toNat
  else '\\' :: 'U' :: hex .lower 8 c.toNat

def quotedChars (s : List Char) : List Char :=
  let mark := quoteMark s
  mark :: (s.flatMap (escaped mark) ++ [mark])

def quoted (s : String) : String := String.ofList (quotedChars s.toList)

def escapedPoint (mark : Char) : CodePoint → List Char
  | .char c => escaped mark c
  | .surrogate half => '\\' :: 'u' :: hex .lower 4 (0xD800 + half.val)

def quotedLabel (l : Label) : String :=
  match l with
  | .text s => quoted s
  | .broken _ =>
      let mark := quoteMark (l.points.filterMap CodePoint.char?)
      String.ofList (mark :: (l.points.flatMap (escapedPoint mark) ++ [mark]))

end Arranger.Text
