import Arranger.Midi.File
import Arranger.Program
import Arranger.Workspace.Basic

/-!
# Programs and renderings in files

The program and the rendering of an arrangement are written into the output directory.  The
directories of a program are made, and its file is emptied before a broken program turns out to be
one.  A rendering needs its directory, and what was written of it before a fault stays in the file.
-/

namespace Arranger.Export

def programSuffix : String := ".scd"

def midiSuffix : String := ".mid"

/-- Writes a program, with the directories that lead to it. -/
def program (name : String) (source : Label) : Action Path := do
  let w ← Action.current
  let p := w.output.join (name ++ programSuffix)
  Action.changeFiles (·.makeDirectories p.parent)
  Action.writeFile p (.text (source.text?.getD ""))
  match source with
  | .text _ => return p
  | .broken t => Action.fail (.encoding (Text.unwritable t))

/-- Writes a rendering. -/
def midi (name : String) (song : Midi.Song) : Action Path := do
  let w ← Action.current
  let p := w.output.join (name ++ midiSuffix)
  Action.changeFiles (·.makeDirectories w.output)
  let written := song.write
  Action.writeFile p (.bytes written.bytes)
  match written.fault with
  | none => return p
  | some fault => Action.fail fault

end Arranger.Export
