import Arranger.Text.Charset

/-!
# Bytes in base 64

Four characters of the alphabet carry three bytes.  Characters outside the alphabet do not count,
and reading ends with the padding that completes a group.
-/

namespace Arranger.Text

inductive Base64Error where
  /-- A single character remains of the last group. -/
  | strayCharacter (count : Nat)
  | padding
  deriving DecidableEq, Repr

def Base64Error.message : Base64Error → String
  | .strayCharacter count =>
      s!"Invalid base64-encoded string: number of data characters ({count}) cannot be 1 more than" ++
        " a multiple of 4"
  | .padding => "Incorrect padding"

def base64Value? (b : UInt8) : Option Nat :=
  let n := b.toNat
  if 0x41 ≤ n && n ≤ 0x5A then some (n - 0x41)
  else if 0x61 ≤ n && n ≤ 0x7A then some (n - 0x61 + 26)
  else if 0x30 ≤ n && n ≤ 0x39 then some (n - 0x30 + 52)
  else if n = 0x2B then some 62
  else if n = 0x2F then some 63
  else none

/-- The values of the alphabet up to the padding that completes a group; `unfinished` counts the
values of the last group and `pads` the padding behind it. -/
def base64Values : List UInt8 → Nat → Nat → List Nat × Bool
  | [], _, _ => ([], false)
  | b :: rest, unfinished, pads =>
      if b = 0x3D then
        if 2 ≤ unfinished then
          if 4 ≤ unfinished + (pads + 1) then ([], true)
          else base64Values rest unfinished (pads + 1)
        else base64Values rest unfinished pads
      else match base64Value? b with
        | none => base64Values rest unfinished pads
        | some v =>
            let (values, complete) := base64Values rest ((unfinished + 1) % 4) 0
            (v :: values, complete)

def base64Groups : List Nat → List UInt8
  | a :: b :: c :: d :: rest =>
      UInt8.ofNat (a * 4 + b / 16) :: UInt8.ofNat (b % 16 * 16 + c / 4) ::
        UInt8.ofNat (c % 4 * 64 + d) :: base64Groups rest
  | [a, b, c] => [UInt8.ofNat (a * 4 + b / 16), UInt8.ofNat (b % 16 * 16 + c / 4)]
  | [a, b] => [UInt8.ofNat (a * 4 + b / 16)]
  | _ => []

def decodeBase64 (s : List UInt8) : Except Base64Error (List UInt8) :=
  let (values, complete) := base64Values s 0 0
  if complete || values.length % 4 = 0 then .ok (base64Groups values)
  else if values.length % 4 = 1 then .error (.strayCharacter values.length)
  else .error .padding

end Arranger.Text
