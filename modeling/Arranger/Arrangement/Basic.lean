import Arranger.Clip
import Arranger.Fault
import Arranger.Named
import Arranger.Track

/-!
# Arrangements

An arrangement holds a pool of clips and the tracks that play them, all tracks together.  Of
several clips or tracks of one name the first one stands for the name.
-/

namespace Arranger

structure Arrangement where
  name : Label
  clips : List Clip
  tracks : List Track

namespace Arrangement

def new (name : Label) : Arrangement := ⟨name, [], []⟩

def clipNames (a : Arrangement) : List String := a.clips.map Clip.name

def trackNames (a : Arrangement) : List String := a.tracks.map (·.name.val)

/-- The names of the clips as tracks refer to them. -/
def clipLabels (a : Arrangement) : List Label := a.clipNames.map .text

/-- The names of all clips and then of all tracks. -/
def names (a : Arrangement) : List String := a.clipNames ++ a.trackNames

/-- The clip that a reference names; a broken text names none. -/
def clip? (a : Arrangement) (name : Label) : Option Clip :=
  name.text?.bind (Named.find? Clip.name · a.clips)

def track? (a : Arrangement) (name : String) : Option Track :=
  Named.find? (·.name.val) name a.tracks

/-! ## Edits -/

def addClip (a : Arrangement) (clip : Clip) : Arrangement :=
  { a with clips := Named.put Clip.name clip a.clips }

def addTrack (a : Arrangement) (track : Track) : Arrangement :=
  { a with tracks := Named.put (·.name.val) track a.tracks }

/-- Removes a clip; tracks keep their references to it. -/
def removeClip? (a : Arrangement) (name : String) : Option Arrangement :=
  (Named.remove? Clip.name name a.clips).map fun clips => { a with clips }

def removeTrack? (a : Arrangement) (name : String) : Option Arrangement :=
  (Named.remove? (·.name.val) name a.tracks).map fun tracks => { a with tracks }

/-- Adds a reference at the end of a track. -/
def appendClip? (a : Arrangement) (track : String) (clip : Label) : Option Arrangement :=
  (Named.update? (·.name.val) track (·.append clip) a.tracks).map fun tracks => { a with tracks }

end Arrangement

end Arranger
