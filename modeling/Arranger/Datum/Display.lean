import Arranger.Datum.Basic

/-!
# Values in messages

A message shows a value as an expression: texts quoted, lists in square brackets, maps in braces.
A collection inside itself is left out.
-/

namespace Arranger

open Text (quoted quotedLabel hex)

def padTwo (n : Nat) : String := String.ofList (Decimal.padLeft 2 (Nat.toDigits 10 n))

def byteShown (mark : Char) (b : UInt8) : List Char :=
  let n := b.toNat
  if n = 0x0A then ['\\', 'n']
  else if n = 0x0D then ['\\', 'r']
  else if n = 0x09 then ['\\', 't']
  else if n = 0x5C then ['\\', '\\']
  else if n = mark.toNat then ['\\', mark]
  else if 0x20 ≤ n && n < 0x7F then [Char.ofNat n]
  else '\\' :: 'x' :: hex .lower 2 n

def bytesShown (bs : List UInt8) : String :=
  let mark := Text.quoteMark (bs.map fun b => Char.ofNat b.toNat)
  String.ofList ('b' :: mark :: (bs.flatMap (byteShown mark) ++ [mark]))

/-- A span of time in whole days and the seconds of the last one. -/
def spanShown (seconds : Int) : String :=
  let days := seconds.fdiv 86400
  let rest := seconds.fmod 86400
  let parts := (if days = 0 then [] else [s!"days={days}"]) ++
    (if rest = 0 then [] else [s!"seconds={rest}"])
  let inside := if parts.isEmpty then "0" else ", ".intercalate parts
  s!"datetime.timedelta({inside})"

def Date.shown (d : Date) : String := s!"datetime.date({d.year}, {d.month}, {d.day})"

def Moment.shown (m : Moment) : String :=
  let clock := [m.hour, m.minute] ++
    (if m.microsecond != 0 then [m.second, m.microsecond]
     else if m.second != 0 then [m.second] else [])
  let fields := ", ".intercalate (([m.date.year, m.date.month, m.date.day] ++ clock).map toString)
  let zone := match m.offset with
    | none => ""
    | some 0 => ", tzinfo=datetime.timezone.utc"
    | some seconds => s!", tzinfo=datetime.timezone({spanShown seconds})"
  s!"datetime.datetime({fields}{zone})"

def Date.text (d : Date) : String :=
  String.ofList (Decimal.padLeft 4 (Nat.toDigits 10 d.year)) ++ s!"-{padTwo d.month}-{padTwo d.day}"

def Moment.text (m : Moment) : String :=
  let fraction := if m.microsecond = 0 then ""
    else "." ++ String.ofList (Decimal.padLeft 6 (Nat.toDigits 10 m.microsecond))
  let zone := match m.offset with
    | none => ""
    | some seconds =>
        let minutes := seconds.natAbs / 60
        (if seconds < 0 then "-" else "+") ++ s!"{padTwo (minutes / 60)}:{padTwo (minutes % 60)}"
  s!"{m.date.text} {padTwo m.hour}:{padTwo m.minute}:{padTwo m.second}{fraction}{zone}"

namespace Datum

/-- What stands for a collection that is shown already. -/
def ellipsis : Datum → String
  | list _ => "[...]"
  | pair _ _ => "(...)"
  | _ => "\x7b...\x7d"

mutual

/-- Shows a value; `around` shows the collections around it. -/
def shownIn (around : Nat → String) : Datum → String
  | null => "None"
  | bool b => if b then "True" else "False"
  | int i => toString i
  | float x => Decimal.plain.write x
  | text s => quoted s
  | brokenText t => quotedLabel (.broken t)
  | date d => d.shown
  | moment m => m.shown
  | bytes bs => bytesShown bs
  | list items => "[" ++ ", ".intercalate (allShownIn around items) ++ "]"
  | pair first second => "(" ++ first.shownIn around ++ ", " ++ second.shownIn around ++ ")"
  | set items =>
      if items.isEmpty then "set()"
      else "\x7b" ++ ", ".intercalate (allShownIn around items) ++ "\x7d"
  | map entries => "\x7b" ++ ", ".intercalate (entriesShownIn around entries) ++ "\x7d"
  | looped [] index => around index
  | looped (first :: rest) index =>
      let again (i : Nat) := ((first :: rest)[i]?.getD null).ellipsis
      tied again (forms (first :: rest)) (rest.length + 2) [] index

def allShownIn (around : Nat → String) : List Datum → List String
  | [] => []
  | item :: rest => item.shownIn around :: allShownIn around rest

def entriesShownIn (around : Nat → String) : List (Datum × Datum) → List String
  | [] => []
  | (key, value) :: rest =>
      (key.shownIn around ++ ": " ++ value.shownIn around) :: entriesShownIn around rest

def forms : List Datum → List ((Nat → String) → String)
  | [] => []
  | item :: rest => (fun around => item.shownIn around) :: forms rest

end

def shown (d : Datum) : String := d.shownIn fun _ => ""

/-- A value as bare text: texts and dates as they are, everything else as in messages. -/
def bareText : Datum → String
  | text s => s
  | brokenText t => (Label.broken t).lossy
  | date d => d.text
  | moment m => m.text
  | other => other.shown

end Datum

end Arranger
