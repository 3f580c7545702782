import Arranger.Text.Base64
import Arranger.Text.Quoted
import Arranger.Yaml.Cursor

/-!
# What can be wrong with a document

A problem is a complaint about a place, and perhaps the activity in which it arose with the place
where that began.  Its message gives the activity, its place unless it is the place of the
complaint, the complaint and its place.
-/

namespace Arranger.Yaml

open Text (quoted)

/-- What was going on when a problem arose. -/
inductive Activity where
  | nextToken
  | directive
  | anchor
  | alias
  | tag
  | readingTag
  | readingDirective
  | blockScalar
  | quotedScalar
  | doubleQuotedScalar
  | simpleKey
  | node
  | blockNode
  | flowNode
  | blockCollection
  | blockMapping
  | flowSequence
  | flowMapping
  | singleDocument
  | duplicateAnchor (name : String)
  | mapping
  | orderedMap
  | pairs
  deriving DecidableEq, Repr

def Activity.text : Activity → String
  | .nextToken => "while scanning for the next token"
  | .directive => "while scanning a directive"
  | .anchor => "while scanning an anchor"
  | .alias => "while scanning an alias"
  | .tag => "while scanning a tag"
  | .readingTag => "while parsing a tag"
  | .readingDirective => "while parsing a directive"
  | .blockScalar => "while scanning a block scalar"
  | .quotedScalar => "while scanning a quoted scalar"
  | .doubleQuotedScalar => "while scanning a double-quoted scalar"
  | .simpleKey => "while scanning a simple key"
  | .node => "while parsing a node"
  | .blockNode => "while parsing a block node"
  | .flowNode => "while parsing a flow node"
  | .blockCollection => "while parsing a block collection"
  | .blockMapping => "while parsing a block mapping"
  | .flowSequence => "while parsing a flow sequence"
  | .flowMapping => "while parsing a flow mapping"
  | .singleDocument => "expected a single document in the stream"
  | .duplicateAnchor name => s!"found duplicate anchor {quoted name}; first occurrence"
  | .mapping => "while constructing a mapping"
  | .orderedMap => "while constructing an ordered map"
  | .pairs => "while constructing pairs"

/-- What is wrong at a place. -/
inductive Complaint where
  | noTokenStart (c : Char)
  | noName (c : Char)
  | noDigitOrPoint (c : Char)
  | noDigitOrSpace (c : Char)
  | noDigit (c : Char)
  | noSpace (c : Char)
  | noLineEnd (c : Char)
  | noTagEnd (c : Char)
  | noBang (c : Char)
  | noUri (c : Char)
  | noUriEscape (c : Char)
  | badUriBytes
  | zeroIndentation
  | noBlockIndicator (c : Char)
  | noHexDigits (count : Nat) (c : Char)
  | unknownEscape (c : Char)
  | streamEnd
  | documentSeparator
  | noColon
  | entryNotAllowed
  | keyNotAllowed
  | valueNotAllowed
  | noDocumentStart (token : String)
  | duplicateVersion
  | incompatibleVersion
  | duplicateHandle (handle : String)
  | undefinedHandle (handle : String)
  | noContent (token : String)
  | noBlockEnd (token : String)
  | noSequenceEnd (token : String)
  | noMappingEnd (token : String)
  | undefinedAlias (name : String)
  | secondOccurrence
  | anotherDocument
  | noScalar (kind : String)
  | noSequence (kind : String)
  | noMapping (kind : String)
  | noMergeMapping (kind : String)
  | noMerge (kind : String)
  | unhashableKey
  | unknownTag (tag : String)
  | noPairSequence (kind : String)
  | noPairMapping (kind : String)
  | noSinglePair (count : Nat)
  | noAscii (cause : Text.EncodingError)
  | noBase64 (cause : Text.Base64Error)
  deriving DecidableEq, Repr

def Complaint.text : Complaint → String
  | .noTokenStart c => s!"found character {quoted c.toString} that cannot start any token"
  | .noName c =>
      s!"expected alphabetic or numeric character, but found {quoted c.toString}"
  | .noDigitOrPoint c => s!"expected a digit or '.', but found {quoted c.toString}"
  | .noDigitOrSpace c => s!"expected a digit or ' ', but found {quoted c.toString}"
  | .noDigit c => s!"expected a digit, but found {quoted c.toString}"
  | .noSpace c => s!"expected ' ', but found {quoted c.toString}"
  | .noLineEnd c => s!"expected a comment or a line break, but found {quoted c.toString}"
  | .noTagEnd c => s!"expected '>', but found {quoted c.toString}"
  | .noBang c => s!"expected '!', but found {quoted c.toString}"
  | .noUri c => s!"expected URI, but found {quoted c.toString}"
  | .noUriEscape c =>
      "expected URI escape sequence of 2 hexadecimal numbers, but found " ++ quoted c.toString
  | .badUriBytes => "the escaped bytes are not UTF-8"
  | .zeroIndentation => "expected indentation indicator in the range 1-9, but found 0"
  | .noBlockIndicator c =>
      s!"expected chomping or indentation indicators, but found {quoted c.toString}"
  | .noHexDigits count c =>
      s!"expected escape sequence of {count} hexadecimal numbers, but found " ++ quoted c.toString
  | .unknownEscape c => s!"found unknown escape character {quoted c.toString}"
  | .streamEnd => "found unexpected end of stream"
  | .documentSeparator => "found unexpected document separator"
  | .noColon => "could not find expected ':'"
  | .entryNotAllowed => "sequence entries are not allowed here"
  | .keyNotAllowed => "mapping keys are not allowed here"
  | .valueNotAllowed => "mapping values are not allowed here"
  | .noDocumentStart token => s!"expected '<document start>', but found {quoted token}"
  | .duplicateVersion => "found duplicate YAML directive"
  | .incompatibleVersion => "found incompatible YAML document (version 1.* is required)"
  | .duplicateHandle handle => s!"duplicate tag handle {quoted handle}"
  | .undefinedHandle handle => s!"found undefined tag handle {quoted handle}"
  | .noContent token => s!"expected the node content, but found {quoted token}"
  | .noBlockEnd token => s!"expected <block end>, but found {quoted token}"
  | .noSequenceEnd token => s!"expected ',' or ']', but got {quoted token}"
  | .noMappingEnd token => s!"expected ',' or '\x7d', but got {quoted token}"
  | .undefinedAlias name => s!"found undefined alias {quoted name}"
  | .secondOccurrence => "second occurrence"
  | .anotherDocument => "but found another document"
  | .noScalar kind => s!"expected a scalar node, but found {kind}"
  | .noSequence kind => s!"expected a sequence node, but found {kind}"
  | .noMapping kind => s!"expected a mapping node, but found {kind}"
  | .noMergeMapping kind => s!"expected a mapping for merging, but found {kind}"
  | .noMerge kind => s!"expected a mapping or list of mappings for merging, but found {kind}"
  | .unhashableKey => "found unhashable key"
  | .unknownTag tag => s!"could not determine a constructor for the tag {quoted tag}"
  | .noPairSequence kind => s!"expected a sequence, but found {kind}"
  | .noPairMapping kind => s!"expected a mapping of length 1, but found {kind}"
  | .noSinglePair count => s!"expected a single mapping item, but found {count} items"
  | .noAscii cause => s!"failed to convert base64 data into ascii: {cause.message}"
  | .noBase64 cause => s!"failed to decode base64 data: {cause.message}"

inductive Problem where
  | at (activity : Option (Activity × Mark)) (complaint : Complaint) (place : Mark)
  | unprintable (c : Char) (index : Nat)
  deriving DecidableEq, Repr

def Mark.shown (source : String) (m : Mark) : String :=
  s!"  in \"{source}\", line {m.line + 1}, column {m.column + 1}"

def unprintableMessage (source : String) (c : Char) (index : Nat) : String :=
  let code := Text.hex .lower (if c.toNat < 0x10000 then 4 else if c.toNat < 0x100000 then 5 else 6)
    c.toNat
  s!"unacceptable character #x{String.ofList code}: special characters are not allowed\n" ++
    s!"  in \"{source}\", position {index}"

/-- The message about a problem in the text with the given name. -/
def Problem.message (source : String) : Problem → String
  | .unprintable c index => unprintableMessage source c index
  | .at activity complaint place =>
      let context := match activity with
        | none => []
        | some (doing, began) =>
            if began.line = place.line && began.column = place.column then [doing.text]
            else [doing.text, began.shown source]
      "\n".intercalate (context ++ [complaint.text, place.shown source])

end Arranger.Yaml
