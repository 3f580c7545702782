import Arranger.Text.Hex
import Arranger.Workspace.Tool

/-!
# Sessions

A session is a sequence of steps on one workspace: calls of tools, new starts that forget the
working copies, and files that are written and read from outside.  Every step has its own stamp, so
that files are ordered by their last writing.
-/

namespace Arranger.Session

inductive Step where
  | call (tool : String) (args : Arguments)
  | restart
  | place (path text : String)
  | reveal (path : String)
  | listFiles
  | describeLibrary

structure State where
  workspace : Workspace
  /-- The root directory, under which all directories of the workspace lie. -/
  root : Path

/-- A workspace in an empty directory that is written as `name`. -/
def start (name : String) : State :=
  let root := Path.atRoot name [name]
  { workspace :=
      { files := FileTree.empty.put [name] .directory
        working := []
        stamp := 0
        arrangements := root.join "arrangements"
        output := root.join "output" }
    root }

/-- What a step shows: the lines of its warnings in ascending order, and a value. -/
structure Answer where
  warnings : List Label
  value : Datum

def silent (value : Datum) : Answer := ⟨[], value⟩

def warningLines (warnings : List Warning) : List Label :=
  (warnings.map Warning.message).mergeSort fun a b => !(b.codes < a.codes)

def answerOf (x : Workspace → Workspace × List Warning × Datum) (w : Workspace) :
    Workspace × Answer :=
  let (w, warnings, value) := x w
  (w, ⟨warningLines warnings, value⟩)

/-- Forgets the working copies. -/
def forgetCopies (w : Workspace) : Workspace := { w with working := [] }

/-- Writes a file from outside, with the directories that lead to it. -/
def placeFile (w : Workspace) (p : Path) (text : String) : Workspace :=
  let written := do (← w.files.makeDirectories p.parent).write p (.text text) w.stamp
  match written with
  | .ok files => { w with files }
  | .error _ => w

def hexText (bytes : List UInt8) : String :=
  String.ofList (bytes.flatMap fun b => Text.hex .lower 2 b.toNat)

/-- The text of a file; the bytes of a rendering are shown in digits. -/
def showFile (w : Workspace) (p : Path) : Datum :=
  match w.files.read p with
  | .error _ => .null
  | .ok (content, _) =>
      if Export.midiSuffix.toList.isSuffixOf p.name.toList then .text (hexText content.toBytes)
      else .text (content.toText?.getD "")

def listingTexts : Action Datum := do
  let found ← Action.ofOutcome (Library.list (← Action.current))
  return .texts (found.map Library.Listing.text)

def toolAction (name : String) (args : Arguments) : Action Datum :=
  match Tool.find? name with
  | some tool => tool args
  | none => .fail (.shape (.noKey name))

def Step.run (s : State) (step : Step) : State × Answer :=
  let w := { s.workspace with stamp := s.workspace.stamp + 1 }
  let (w, answer) := match step with
    | .call name args => answerOf (Reply.of (toolAction name args)) w
    | .restart => (forgetCopies w, silent .null)
    | .place path text => (placeFile w (s.root.join path) text, silent .null)
    | .reveal path => (w, silent (showFile w (s.root.join path)))
    | .listFiles => (w, silent (.texts (w.files.filesBelow s.root.base)))
    | .describeLibrary => answerOf (Reply.of listingTexts) w
  ({ s with workspace := w }, answer)

def run (s : State) : List Step → State × List Answer
  | [] => (s, [])
  | step :: rest =>
      let (s, answer) := step.run s
      let (s, answers) := run s rest
      (s, answer :: answers)

end Arranger.Session
