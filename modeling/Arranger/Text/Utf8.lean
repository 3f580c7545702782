import Arranger.Text.Hex

/-!
# Bytes as texts

The bytes of a file are read in pieces.  A character is a first byte and some more, for which the
first one gives bounds; one that a piece leaves incomplete is carried into the next piece.  Reading
stops at the first bytes that are no character, whose place is counted in their piece.
-/

namespace Arranger.Text

/-- The bytes that are no character, and where they start. -/
structure DecodingError where
  start : Nat
  refused : List UInt8
  reason : String
  deriving DecidableEq, Repr

def DecodingError.message (e : DecodingError) : String :=
  let subject := match e.refused with
    | [b] => s!"byte 0x{String.ofList (hex .lower 2 b.toNat)} in position {e.start}"
    | _ => s!"bytes in position {e.start}-{e.start + e.refused.length - 1}"
  "'utf-8' codec can't decode " ++ subject ++ s!": {e.reason}"

/-- The bounds of the bytes after a first byte; other bytes begin no character. -/
def followers? (b : UInt8) : Option (List (UInt8 × UInt8)) :=
  let free := (0x80, 0xBF)
  if b < 0x80 then some []
  else if b < 0xC2 then none
  else if b < 0xE0 then some [free]
  else if b = 0xE0 then some [(0xA0, 0xBF), free]
  else if b = 0xED then some [(0x80, 0x9F), free]
  else if b < 0xF0 then some [free, free]
  else if b = 0xF0 then some [(0x90, 0xBF), free, free]
  else if b < 0xF4 then some [free, free, free]
  else if b = 0xF4 then some [(0x80, 0x8F), free, free]
  else none

/-- Reads the bytes of a piece, of which `begun` belong to a character that wants more.  What is
left is the beginning of a last character. -/
def readPiece (place : Nat) (begun : List UInt8) :
    List (UInt8 × UInt8) → List UInt8 → Except DecodingError (List UInt8)
  | _, [] => .ok begun
  | [], b :: rest =>
      match followers? b with
      | none => .error ⟨place, [b], "invalid start byte"⟩
      | some [] => readPiece (place + 1) [] [] rest
      | some (bounds :: more) => readPiece (place + 1) [b] (bounds :: more) rest
  | (least, most) :: more, b :: rest =>
      if least ≤ b ∧ b ≤ most then
        readPiece (place + 1) (if more.isEmpty then [] else begun ++ [b]) more rest
      else .error ⟨place - begun.length, begun, "invalid continuation byte"⟩

def pieceSize : Nat := 8192

/-- Reads bytes piece by piece, with those that are carried in front of the next piece.  What is
left is the beginning of a last character. -/
def readPieces (carried bytes : List UInt8) : Except DecodingError (List UInt8) :=
  if bytes.isEmpty then .ok carried
  else do
    let carried ← readPiece 0 [] [] (carried ++ bytes.take pieceSize)
    readPieces carried (bytes.drop pieceSize)
termination_by bytes.length
decreasing_by
  have hpos : 0 < bytes.length := by simpa [List.length_pos_iff] using ‹¬bytes.isEmpty = true›
  simp only [List.length_drop, pieceSize]
  omega

/-- Why bytes are no text. -/
def decodingError (bytes : List UInt8) : DecodingError :=
  match readPieces [] bytes with
  | .error e => e
  | .ok left => ⟨0, left, "unexpected end of data"⟩

end Arranger.Text
