import Arranger.Yaml.Error

/-!
# Tokens

A document is read as a sequence of tokens.  Blocks are marked by tokens for their beginning and
end, which come from the indentation, and a simple key gets its token once its colon is found.
-/

namespace Arranger.Yaml

inductive Directive where
  | version (major minor : Nat)
  | handle (handle replacement : String)
  | reserved (name : String)
  deriving DecidableEq, Repr

/-- The text of a scalar token.  A plain text may stand for a value other than a text. -/
structure ScalarText where
  value : Label
  isPlain : Bool
  deriving DecidableEq, Repr

inductive Token.Content where
  | streamEnd
  | directive (d : Directive)
  | documentStart
  | documentEnd
  | blockSequenceStart
  | blockMappingStart
  | blockEnd
  | flowSequenceStart
  | flowMappingStart
  | flowSequenceEnd
  | flowMappingEnd
  | key
  | value
  | blockEntry
  | flowEntry
  | alias (name : String)
  | anchor (name : String)
  | tag (handle : Option String) (suffix : String)
  | scalar (text : ScalarText)
  deriving DecidableEq, Repr

structure Token where
  content : Token.Content
  start : Mark
  stop : Mark
  deriving DecidableEq, Repr

/-- How a token is called in a message. -/
def Token.Content.shown : Token.Content → String
  | .streamEnd => "<stream end>"
  | .directive _ => "<directive>"
  | .documentStart => "<document start>"
  | .documentEnd => "<document end>"
  | .blockSequenceStart => "<block sequence start>"
  | .blockMappingStart => "<block mapping start>"
  | .blockEnd => "<block end>"
  | .flowSequenceStart => "["
  | .flowMappingStart => "\x7b"
  | .flowSequenceEnd => "]"
  | .flowMappingEnd => "\x7d"
  | .key => "?"
  | .value => ":"
  | .blockEntry => "-"
  | .flowEntry => ","
  | .alias _ => "<alias>"
  | .anchor _ => "<anchor>"
  | .tag _ _ => "<tag>"
  | .scalar _ => "<scalar>"

end Arranger.Yaml
