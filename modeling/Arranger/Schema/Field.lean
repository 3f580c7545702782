import Arranger.Decimal.Reading
import Arranger.Schema.Issue

/-!
# Reading fields

A reader takes a value and gives what it stands for or the issues with it.  Issues are collected:
every field and every item of a list is read, whatever the others give.  Numbers may be given as
texts, truth values as numbers and whole numbers with a zero fraction.
-/

namespace Arranger.Schema

open Text (isAsciiDigit)

abbrev Checked (α : Type) := Except (List Issue) α

namespace Checked

variable {α β : Type}

def reject (cause : Cause) (input : Datum) : Checked α := .error [⟨[], cause, input⟩]

def issues : Checked α → List Issue
  | .ok _ => []
  | .error found => found

/-- Both results, or the issues of both. -/
def both (x : Checked α) (y : Checked β) : Checked (α × β) :=
  match x, y with
  | .ok a, .ok b => .ok (a, b)
  | x, y => .error (x.issues ++ y.issues)

/-- Places the issues below a step. -/
def below (step : Step) : Checked α → Checked α
  | .ok a => .ok a
  | .error found => .error (found.map fun issue => { issue with place := step :: issue.place })

/-- Reads the items of a list from a position on. -/
def itemsFrom (read : Datum → Checked α) : Nat → List Datum → Checked (List α)
  | _, [] => .ok []
  | i, item :: rest =>
      (both (below (.index i) (read item)) (itemsFrom read (i + 1) rest)).map fun (a, more) =>
        a :: more

end Checked

open Checked (reject)

/-! ## Texts -/

/-- Reads a label; bytes count as the text that they encode.  Otherwise the value is rejected: bytes
that encode no text for the cause `undecoded`, and a value of another kind for `otherKind`. -/
def readLabelOr (undecoded otherKind : Cause) : Datum → Checked Label
  | .text s => .ok s
  | .brokenText t => .ok (.broken t)
  | .bytes bs => match String.fromUTF8? (ByteArray.mk bs.toArray) with
    | some s => .ok s
    | none => reject undecoded (.bytes bs)
  | other => reject otherKind other

/-- Reads a text in which there is something to look for; it must not be broken. -/
def readTextOr (undecoded otherKind : Cause) (d : Datum) : Checked String := do
  match ← readLabelOr undecoded otherKind d with
  | .text s => .ok s
  | .broken _ => reject .brokenText d

def readLabel : Datum → Checked Label := readLabelOr .brokenText .noText

/-- A text of at least one character. -/
abbrev Name := { s : String // s ≠ "" }

def readName (d : Datum) : Checked Name := do
  let s ← readTextOr .brokenText .noText d
  if h : s = "" then reject .emptyText d else .ok ⟨s, h⟩

def readLiteral (expected : String) (d : Datum) : Checked Unit :=
  match d with
  | .text s => if s = expected then .ok () else reject (.literal expected) d
  | _ => reject (.literal expected) d

/-! ## Integers -/

/-- Digits without a leading zero, perhaps behind a minus sign. -/
def bareInteger? (s : List Char) : Option (Bool × List Char) :=
  let (negative, digits) := match s with
    | '-' :: rest => (true, rest)
    | s => (false, s)
  if digits.isEmpty || !digits.all isAsciiDigit then none
  else if digits.head? = some '0' && digits.length != 1 then none
  else some (negative, digits)

/-- What remains behind leading zeros and the underscores among them; the last zero stays in front
of a point and at the end. -/
def withoutLeadingZeros (previous : Char) : List Char → Option (List Char)
  | [] => some [previous]
  | c :: rest =>
      if c = '0' || c = '_' then withoutLeadingZeros c rest
      else if isAsciiDigit c then some (c :: rest)
      else if c = '.' then some (previous :: c :: rest)
      else none

def significantPart : List Char → Option (List Char)
  | [] => none
  | c :: rest =>
      if c = '0' then withoutLeadingZeros c rest
      else if isAsciiDigit c || c = '-' then some (c :: rest)
      else none

def withoutZeroFraction (s : List Char) : List Char :=
  match s.dropWhile (· != '.') with
  | _ :: fraction => if fraction.all (· = '0') then s.takeWhile (· != '.') else s
  | [] => s

def hasDoubleUnderscore : List Char → Bool
  | a :: b :: rest => (a = '_' && b = '_') || hasDoubleUnderscore (b :: rest)
  | _ => false

/-- Removes single underscores that stand inside a text. -/
def joinedAtUnderscores (s : List Char) : List Char :=
  if s.head? = some '_' || s.getLast? = some '_' || hasDoubleUnderscore s then s
  else s.filter (· != '_')

def plainInteger (s : List Char) : Option (List Char) := do
  let s := Text.trim Text.isWhiteSpace s
  let s := match s with
    | '+' :: rest => rest
    | s => s
  return joinedAtUnderscores (withoutZeroFraction (← significantPart s))

/-- Reads the integer that a text writes; it is the text of the given value. -/
def readIntegerText (d : Datum) (s : String) : Checked Int :=
  let found := (bareInteger? s.toList).or ((plainInteger s.toList).bind bareInteger?)
  match found with
  | none => reject .unreadableInteger d
  | some (negative, digits) =>
      if digits.length > Text.digitLimit then reject .hugeInteger d
      else .ok (Text.signed negative (Text.ofDigits 10 (digits.map fun c => c.toNat - '0'.toNat)))

/-- Floating numbers are taken as integers up to this size. -/
def integerBound : Int := 0x8000000000000000

def readWhole (x : Float) : Checked Int :=
  match Decimal.decode x with
  | .finite negative mantissa exponent =>
      let (num, den) := Decimal.scaled mantissa exponent
      if num % den != 0 then reject .fraction (.float x)
      else
        let value := Text.signed negative (num / den)
        if -integerBound < value && value < integerBound then .ok value
        else reject .hugeInteger (.float x)
  | _ => reject .notFinite (.float x)

def readInteger : Datum → Checked Int
  | .bool b => .ok (if b then 1 else 0)
  | .int i => .ok i
  | .float x => readWhole x
  | other => do readIntegerText other (← readTextOr .unreadableInteger .noInteger other)

def readIntegerBetween (least most : Int) (d : Datum) : Checked { i : Int // least ≤ i ∧ i ≤ most } :=
  do
  let i ← readInteger d
  if hlow : i < least then reject (.below least) d
  else if hhigh : most < i then reject (.above most) d
  else .ok ⟨i, by omega, by omega⟩

/-! ## Numbers -/

/-- Reads the number that a text writes; it is the text of the given value. -/
def readNumberText (d : Datum) (s : String) : Checked Float :=
  let direct := Decimal.readAscii (Text.trim Text.isWhiteSpace s.toList)
  match direct.or (Decimal.readAscii (joinedAtUnderscores s.toList)) with
  | some x => .ok x
  | none => reject .unreadableNumber d

def readNumber : Datum → Checked Float
  | .bool b => .ok (if b then 1.0 else 0.0)
  | .int i => match Decimal.ofInteger? i with
    | some x => .ok x
    | none => reject .noNumber (.int i)
  | .float x => .ok x
  | other => do readNumberText other (← readTextOr .unreadableNumber .noNumber other)

/-! ## Lists and records -/

def readItems {α : Type} (read : Datum → Checked α) (d : Datum) : Checked (List α) :=
  match d.view with
  | .list items => Checked.itemsFrom read 0 items
  | .set items => Checked.itemsFrom read 0 items
  | .pair first second => Checked.itemsFrom read 0 [first, second]
  | _ => reject .noList d

/-- Nothing, or a value. -/
def readOptional {α : Type} (read : Datum → Checked α) : Datum → Checked (Option α)
  | .null => .ok none
  | other => (read other).map some

/-- Reads a field that must be there. -/
def field {α : Type} (name : String) (read : Datum → Checked α) (d : Datum) : Checked α :=
  Checked.below (.field name) <|
    match d.get? name with
    | some value => read value
    | none => reject .missing d

/-- Reads a field, or takes a value in its place if it is not there. -/
def fieldOr {α : Type} (name : String) (fallback : α) (read : Datum → Checked α)
    (d : Datum) : Checked α :=
  match d.get? name with
  | some value => Checked.below (.field name) (read value)
  | none => .ok fallback

end Arranger.Schema
