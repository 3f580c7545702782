import Arranger.Datum.Shape
import Arranger.Decimal.Whole
import Arranger.Files.Error
import Arranger.Schema.Issue
import Arranger.Theory.Error
import Arranger.Warning
import Arranger.Yaml.Error

/-!
# Faults and outcomes

A fault is the reason why a step gives no value.  An outcome is a value or a fault together with
the warnings met on the way, which a fault does not undo.
-/

namespace Arranger

/-- A value that no MIDI message or file can hold. -/
inductive MidiError where
  | pitch (value : Int)
  | velocity (value : Int)
  | channel (value : Int)
  | start (value : Int)
  | duration (value : Int)
  | tempo
  | header
  deriving DecidableEq, Repr

def MidiError.message : MidiError → String
  | .pitch value => s!"Pitch must be 0-127, got {value}"
  | .velocity value => s!"Velocity must be 0-127, got {value}"
  | .channel value => s!"Channel must be 0-15, got {value}"
  | .start value => s!"Start ticks must be >= 0, got {value}"
  | .duration value => s!"Duration ticks must be >= 0, got {value}"
  | .tempo => "attribute must be in range 0..16777215"
  | .header => "'h' format requires -32768 <= number <= 32767"

inductive Entity where
  | arrangement
  | clip
  | track
  deriving DecidableEq, Repr

def Entity.label : Entity → String
  | .arrangement => "Arrangement"
  | .clip => "Clip"
  | .track => "Track"

inductive Fault where
  | theory (cause : TheoryError)
  /-- A clip whose note groups and durations are not equally many. -/
  | lengths (clip : String) (groups durations : Nat)
  | tokenCounts (notes durations : Nat)
  | unfinishedClip (clip : String)
  | rejected (cause : Schema.Rejection)
  | document (source : String) (cause : Yaml.Error)
  | shape (cause : ShapeError)
  | number (cause : NumberError)
  | midi (cause : MidiError)
  | encoding (cause : Text.EncodingError)
  | file (cause : FileError)
  | missing (entity : Entity) (name : String)

def lengthsMessage (clip : String) (groups durations : Nat) : String :=
  s!"Clip '{clip}' has {groups} note groups but {durations} durations"

def Fault.message : Fault → String
  | .theory cause => cause.message
  | .lengths clip groups durations => lengthsMessage clip groups durations
  | .tokenCounts notes durations => s!"Got {notes} note events but {durations} durations"
  | .unfinishedClip clip => s!"Audio file clips cannot be lowered yet (clip '{clip}')"
  | .rejected cause => cause.message
  | .document source cause => cause.message source
  | .shape cause => cause.message
  | .number cause => cause.message
  | .midi cause => cause.message
  | .encoding cause => cause.message
  | .file cause => cause.message
  | .missing entity name => s!"{entity.label} not found: {name}"

structure Outcome (α : Type) where
  warnings : List Warning
  result : Except Fault α

namespace Outcome

variable {α β : Type}

def of (x : Except Fault α) : Outcome α := ⟨[], x⟩

def value (a : α) : Outcome α := ⟨[], .ok a⟩

def fail (f : Fault) : Outcome α := ⟨[], .error f⟩

def warn (w : Warning) : Outcome Unit := ⟨[w], .ok ()⟩

def andThen (x : Outcome α) (f : α → Outcome β) : Outcome β :=
  match x.result with
  | .ok a => ⟨x.warnings ++ (f a).warnings, (f a).result⟩
  | .error e => ⟨x.warnings, .error e⟩

instance : Monad Outcome where
  pure := value
  bind := andThen

/-- A sound step goes on as its value does. -/
theorem value_andThen (a : α) (f : α → Outcome β) : (value a).andThen f = f a := by
  simp [andThen, value]

theorem result_andThen (x : Outcome α) (f : α → Outcome β) :
    (x.andThen f).result = x.result.bind fun a => (f a).result := by
  unfold andThen
  cases x.result <;> rfl

end Outcome

end Arranger
