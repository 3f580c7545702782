import Arranger.Text.Quoted

/-!
# Warnings

A step that goes on in spite of something odd says so in a warning.
-/

namespace Arranger

inductive Warning where
  | durationLetter (letter : String)
  | placeholder (clip : String)
  | skippedFileClip (clip : String)
  | unknownClip (track : String) (clip : Label)
  | unreadableFile (path : String)
  | noMapping (path : String)
  deriving DecidableEq, Repr

def Warning.message : Warning → Label
  | .durationLetter letter => s!"Unknown duration letter {Text.quoted letter}, using 0.0"
  | .placeholder clip => s!"Emitting placeholder for unimplemented file clip '{clip}'"
  | .skippedFileClip clip => s!"Skipping file clip '{clip}' in MIDI preview"
  | .unknownClip track clip => s!"Track '{track}' references unknown clip '" ++ clip ++ "'"
  | .unreadableFile path => s!"Skipping unreadable arrangement file {path}"
  | .noMapping path => s!"Skipping arrangement file without a mapping {path}"

end Arranger
