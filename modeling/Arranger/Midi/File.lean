import Arranger.Midi.Song
import Arranger.Text.Charset

/-!
# MIDI files

A file has a header and a chunk for each track.  Times are numbers of variable length.  A status
byte that equals the one of the message before is left out; a meta message ends this.  What is
written before a fault stays written.
-/

namespace Arranger.Midi

def byte (n : Nat) : UInt8 := UInt8.ofNat n

/-- The last `width` bytes of a number, the highest first. -/
def bigEndian : Nat → Nat → List UInt8
  | 0, _ => []
  | width + 1, n => bigEndian width (n / 256) ++ [byte (n % 256)]

/-- The last `width` digits of a number to the base 128, each with the top bit set. -/
def continued : Nat → Nat → List UInt8
  | 0, _ => []
  | width + 1, n => continued width (n / 128) ++ [byte (128 + n % 128)]

/-- How many digits a number has to the base 128; zero has none. -/
def sevenBitWidth (n : Nat) : Nat := if n = 0 then 0 else n.log2 / 7 + 1

/-- A number in groups of seven bits; every byte but the last has its top bit set. -/
def variableLength (n : Nat) : List UInt8 :=
  continued (sevenBitWidth (n / 128)) (n / 128) ++ [byte (n % 128)]

def metaBytes (kind : Nat) (content : List UInt8) : List UInt8 :=
  byte 0xFF :: byte kind :: variableLength content.length ++ content

/-- A channel message: its status byte and the bytes behind it. -/
def channelBytes? : Message → Option (UInt8 × List UInt8)
  | .noteOn channel pitch velocity =>
      some (byte (0x90 + channel.val), [byte pitch.val, byte velocity.val])
  | .noteOff channel pitch velocity =>
      some (byte (0x80 + channel.val), [byte pitch.val, byte velocity.val])
  | _ => none

def metaMessageBytes : Message → Except Text.EncodingError (List UInt8)
  | .tempo value => .ok (metaBytes 0x51 (bigEndian 3 value.val))
  | .trackName name => do return metaBytes 0x03 (← Text.Charset.latin1.encode (Label.text name).points)
  | _ => .ok (metaBytes 0x2F [])

/-- The bytes of messages behind a message with the given status byte. -/
def messagesBytes : Option UInt8 → List Timed → Except Text.EncodingError (List UInt8)
  | _, [] => .ok []
  | running, m :: rest =>
      match channelBytes? m.message with
      | some (status, content) => do
          let message := if running = some status then content else status :: content
          return variableLength m.delta ++ message ++ (← messagesBytes (some status) rest)
      | none => do
          let message ← metaMessageBytes m.message
          return variableLength m.delta ++ message ++ (← messagesBytes none rest)

def chunk (kind : String) (content : List UInt8) : List UInt8 :=
  (kind.toList.map fun c => byte c.toNat) ++ bigEndian 4 content.length ++ content

/-- A signed number in two bytes. -/
def shortBytes (i : Int) : Except MidiError (List UInt8) :=
  if -32768 ≤ i && i ≤ 32767 then .ok (bigEndian 2 (i % 65536).toNat) else .error .header

def formatNumber : Int := 1

def headerBytes (s : Song) : Except MidiError (List UInt8) := do
  let format ← shortBytes formatNumber
  let count ← shortBytes s.tracks.length
  let ticks ← shortBytes s.ticksPerBeat
  return chunk "MThd" (format ++ count ++ ticks)

/-- The bytes that were written and the fault that ended the writing, if one did. -/
structure Written where
  bytes : List UInt8
  fault : Option Fault

def tracksBytes : List (List Timed) → Written
  | [] => ⟨[], none⟩
  | messages :: rest => match messagesBytes none messages with
    | .error cause => ⟨[], some (.encoding cause)⟩
    | .ok content =>
        let more := tracksBytes rest
        ⟨chunk "MTrk" content ++ more.bytes, more.fault⟩

def Song.write (s : Song) : Written :=
  match headerBytes s with
  | .error cause => ⟨[], some (.midi cause)⟩
  | .ok header =>
      let tracks := tracksBytes s.tracks
      ⟨header ++ tracks.bytes, tracks.fault⟩

end Arranger.Midi
