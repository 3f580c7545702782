import Arranger.Text.Hex
import Arranger.Text.Label

/-!
# Encodings

A character set of at most 256 characters takes the first code points as bytes.  Encoding stops at
the first run of code points beyond the set.  The encoding of files has all characters, but no
surrogates.
-/

namespace Arranger.Text

inductive Charset where
  | ascii
  | latin1
  deriving DecidableEq, Repr

def Charset.name : Charset → String
  | .ascii => "ascii"
  | .latin1 => "latin-1"

def Charset.size : Charset → Nat
  | .ascii => 128
  | .latin1 => 256

/-- The first run of code points that an encoding lacks: its first one, its place and length. -/
structure EncodingError where
  encoding : String
  reason : String
  first : CodePoint
  start : Nat
  length : Nat
  deriving DecidableEq, Repr

def codeEscape (p : CodePoint) : List Char :=
  let n := p.toNat
  if n < 0x100 then '\\' :: 'x' :: hex .lower 2 n
  else if n < 0x10000 then '\\' :: 'u' :: hex .lower 4 n
  else '\\' :: 'U' :: hex .lower 8 n

def EncodingError.message (e : EncodingError) : String :=
  let subject :=
    if e.length = 1 then s!"character '{String.ofList (codeEscape e.first)}' in position {e.start}"
    else s!"characters in position {e.start}-{e.start + e.length - 1}"
  s!"'{e.encoding}' codec can't encode " ++ subject ++ s!": {e.reason}"

def Charset.has (charset : Charset) (p : CodePoint) : Bool := p.toNat < charset.size

def Charset.encode (charset : Charset) (s : List CodePoint) : Except EncodingError (List UInt8) :=
  match s.dropWhile charset.has with
  | [] => .ok (s.map fun p => UInt8.ofNat p.toNat)
  | first :: rest =>
      .error
        { encoding := charset.name
          reason := s!"ordinal not in range({charset.size})"
          first
          start := (s.takeWhile charset.has).length
          length := (rest.takeWhile (!charset.has ·)).length + 1 }

/-- Why a file cannot hold a broken text. -/
def unwritable (t : BrokenText) : EncodingError where
  encoding := "utf-8"
  reason := "surrogates not allowed"
  first := .surrogate t.first
  start := t.front.length
  length := (t.rest.takeWhile (!·.isChar)).length + 1

end Arranger.Text
