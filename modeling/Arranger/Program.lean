import Arranger.Arrangement.Basic
import Arranger.Decimal.Layout

/-!
# Programs

An arrangement is compiled to the text of a SuperCollider program.  The program declares a variable
for every clip and track, defines the clips and then the tracks in order, and plays all tracks
together.  Names are written as they are; the clips that a track plays need not exist, and a
program with a broken text for one of them is broken.
-/

namespace Arranger.Program

/-- The synthesizer that every program defines. -/
def synthesizer : String := "\n".intercalate
  ["(",
   "SynthDef.new(\\sine, \x7b",
   "    arg freq=440, atk=0.005, rel=0.3, amp=1, pan=0;",
   "    var sig, env;",
   "    sig = SinOsc.ar(freq);",
   "    env = EnvGen.kr(Env.new([0, 1, 0], [atk, rel], [1, -1]), doneAction:2);",
   "    sig = Pan2.ar(sig, pan, amp);",
   "    sig = sig * env;",
   "    Out.ar(0, sig);",
   "\x7d).add;",
   ")",
   ""]

def number (x : Float) : String := Decimal.plain.write x

def durations (xs : List Float) : String := "[" ++ ", ".intercalate (xs.map number) ++ "]"

/-- What stands in the place of a group at a rest. -/
def rest : String := "note:Rest()"

def group (numbers : List Int) : String :=
  "[" ++ ", ".intercalate (numbers.map toString) ++ "]"

/-- An element of an array of groups; a comma follows each. -/
def groupElement : Option (List Int) → String
  | none => rest ++ ","
  | some numbers => group numbers ++ ","

def groups (notes : List (Option (List Int))) : String :=
  "[" ++ String.join (notes.map groupElement) ++ "]"

def nameList (names : List Label) : Label :=
  "[" ++ Label.join (names.map (· ++ ",")) ++ "]"

def groupNumbers (g : Group) : Option (List Int) := g.map fun pitches => pitches.map (·.val)

def instrumentClip (c : InstrumentClip) : String :=
  c.name ++ " = Pbind(\n    \\instrument, \\" ++ c.instrument ++ ",\n    \\dur, Pseq(" ++
    durations c.durations ++ "),\n    \\midinote, Pseq(" ++ groups (c.notes.map groupNumbers) ++
    "),\n);\n"

def emptyClip (c : EmptyClip) : String :=
  c.name ++ " = (note:Rest(), dur:" ++ number c.duration ++ ");\n"

/-- The placeholder for a clip whose playback is not finished. -/
def placeholder (c : FileClip) : String :=
  "// unimplemented: audio file playback is a placeholder\n" ++ c.name ++
    " = \x7bPlayBuf.ar(2, Buffer.read(s, \"" ++ c.path ++ "\"))\x7d;\n"

/-- The definition of a clip.  An instrument clip needs as many durations as groups, and a file
clip has only a placeholder, if that is allowed. -/
def clip (allowStubs : Bool) : Clip → Outcome String
  | .instrument c =>
      if c.lengthsAgree then .value (instrumentClip c)
      else .fail (.lengths c.name c.notes.length c.durations.length)
  | .empty c => .value (emptyClip c)
  | .file c =>
      if allowStubs then ⟨[.placeholder c.name], .ok (placeholder c)⟩
      else .fail (.unfinishedClip c.name)

/-- A value that was not read as a clip has no definition. -/
def unreadClip (d : Datum) : Outcome String := .fail (.shape (.noClip d.shown))

def track (t : Track) : Label :=
  t.name ++ " = Pseq(" ++ nameList t.clips ++ ").do(\x7barg currClip; currClip.play\x7d);\n"

/-- The definitions of the clips, each followed by an empty line. -/
def clips (allowStubs : Bool) : List Clip → Outcome String
  | [] => .value ""
  | c :: rest =>
      (clip allowStubs c).andThen fun text =>
        (clips allowStubs rest).andThen fun more => .value (text ++ "\n" ++ more)

def tracks (ts : List Track) : Label := Label.join (ts.map fun t => track t ++ "\n")

/-- The declaration of the names; there is none without names. -/
def declaration (names : List String) : String :=
  if names.isEmpty then "" else "var " ++ ",".intercalate names ++ ";"

/-- The program in front of the definitions of the tracks. -/
def opening (names : List String) (clipDefinitions : String) : String :=
  synthesizer ++ "\n(\n" ++ declaration names ++ "\n" ++ clipDefinitions ++ "\n"

/-- The program behind the definitions of the tracks. -/
def closing (trackNames : List String) : Label :=
  "\n" ++ nameList (trackNames.map .text) ++ ".do(\x7barg currTrack; currTrack.play\x7d)\n)"

def assemble (a : Arrangement) (clipDefinitions : String) : Label :=
  opening a.names clipDefinitions ++ tracks a.tracks ++ closing a.trackNames

/-- The program of an arrangement. -/
def source (allowStubs : Bool) (a : Arrangement) : Outcome Label :=
  (clips allowStubs a.clips).andThen fun text => .value (assemble a text)

end Arranger.Program
