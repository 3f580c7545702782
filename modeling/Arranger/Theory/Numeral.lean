import Arranger.Theory.Error

/-!
# Numerals

A numeral names a tone by its position in a major scale, counted from one, perhaps lowered or
raised by a half step: `1`, `b3`, `#5`.
-/

namespace Arranger

inductive Accidental where
  | flat
  | natural
  | sharp
  deriving DecidableEq, Repr

namespace Accidental

def halfSteps : Accidental → Int
  | flat => -1
  | natural => 0
  | sharp => 1

def ofInt? (i : Int) : Option Accidental := [flat, natural, sharp].find? (·.halfSteps = i)

def symbol : Accidental → String
  | flat => "b"
  | natural => ""
  | sharp => "#"

end Accidental

structure Numeral where
  degree : Nat
  accidental : Accidental := .natural
  degree_pos : 0 < degree := by decide
  deriving DecidableEq

namespace Numeral

def new (degree accidental : Int) : Except TheoryError Numeral :=
  if h : degree < 1 then .error (.value (.degree degree))
  else match Accidental.ofInt? accidental with
    | none => .error (.value (.accidental accidental))
    | some a => .ok ⟨degree.toNat, a, by omega⟩

def splitAccidental : List Char → Accidental × List Char
  | 'b' :: rest => (.flat, rest)
  | '#' :: rest => (.sharp, rest)
  | s => (.natural, s)

/-- Reads an optional accidental and a number.  A digit sign is a digit here, but a number that
holds one cannot be read. -/
def parse (symbol : String) : Except TheoryError Numeral :=
  let (accidental, body) := splitAccidental (Text.strip symbol.toList)
  let text := String.ofList body
  if body.isEmpty || !body.all Text.isDigit then .error (.token (.numeral text))
  else match Text.readInteger text with
    | .error cause => .error (.value (.integer cause))
    | .ok degree =>
        if h : degree < 1 then .error (.token (.numeral text))
        else .ok ⟨degree.toNat, accidental, by omega⟩

def text (n : Numeral) : String := n.accidental.symbol ++ toString n.degree

end Numeral

end Arranger
