import Arranger.Yaml.Tag
import Arranger.Yaml.Token.Stream

/-!
# Nodes

A document is a tree of scalars, sequences and mappings.  It is read from the tokens of a text.  A
node with an anchor is kept apart under a number, which stands for it in its own place and at every
alias, those inside of it included.
-/

namespace Arranger.Yaml

inductive Node where
  | scalar (tag : Tag) (text : ScalarText) (place : Mark)
  | sequence (tag : Tag) (items : List Node) (place : Mark)
  | mapping (tag : Tag) (entries : List (Node × Node)) (place : Mark)
  /-- A node with an anchor, by its number. -/
  | shared (index : Nat) (place : Mark)

namespace Node

instance : Inhabited Node := ⟨.sequence .seq [] .start⟩

def place : Node → Mark
  | scalar _ _ place => place
  | sequence _ _ place => place
  | mapping _ _ place => place
  | shared _ place => place

/-- What stands where a node is left out. -/
def absent (place : Mark) : Node := scalar .null ⟨.text "", true⟩ place

end Node

/-! ## Reading nodes from tokens -/

/-- The tokens still to be read, why they end early if they do, the tag handles of the document, its
anchors with the numbers and places of their nodes, and these nodes as far as they are read. -/
structure Composer where
  tokens : List Token
  stop : Option Error
  handles : List (String × String)
  anchors : List (String × Nat × Mark)
  shared : List Node

abbrev Composing := StateT Composer (Except Error)

namespace Composing

def fail {α : Type} (e : Error) : Composing α := throw e

def peek : Composing Token := do
  let c ← get
  match c.tokens, c.stop with
  | t :: _, _ => return t
  | [], some e => throw e
  | [], none => return ⟨.streamEnd, .start, .start⟩

def drop : Composing Unit := modify fun c => { c with tokens := c.tokens.drop 1 }

def isNext (content : Token.Content) : Composing Bool := do
  return (← peek).content = content

def dropAll (content : Token.Content) : Nat → Composing Unit
  | 0 => return ()
  | fuel + 1 => do
      if ← isNext content then
        drop
        dropAll content fuel

/-! ## Directives -/

def defaultHandles : List (String × String) := [("!", "!"), ("!!", standardHandle)]

/-- Reads the directives of a document: at most one version, and each handle once. -/
def directives (hasVersion : Bool) (handles : List (String × String)) :
    Nat → Composing (List (String × String))
  | 0 => return handles
  | fuel + 1 => do
      let t ← peek
      match t.content with
      | .directive (.version major _) =>
          drop
          if hasVersion then fail (.here .duplicateVersion t.start)
          else if major != 1 then fail (.here .incompatibleVersion t.start)
          else directives true handles fuel
      | .directive (.handle handle replacement) =>
          drop
          if (handles.lookup handle).isSome then fail (.here (.duplicateHandle handle) t.start)
          else directives hasVersion (handles ++ [(handle, replacement)]) fuel
      | .directive (.reserved _) =>
          drop
          directives hasVersion handles fuel
      | _ => return handles

/-! ## Properties -/

structure Properties where
  anchor : Option String
  tag : Option String
  start : Option Mark

def anchorProperty : Composing (Option (String × Mark)) := do
  let t ← peek
  match t.content with
  | .anchor name =>
      drop
      return some (name, t.start)
  | _ => return none

def tagProperty : Composing (Option ((Option String × String) × Mark)) := do
  let t ← peek
  match t.content with
  | .tag handle suffix =>
      drop
      return some ((handle, suffix), t.start)
  | _ => return none

/-- The full name of a tag, with its handle replaced. -/
def resolveTag (start place : Mark) (handle : Option String) (suffix : String) :
    Composing String := do
  match handle with
  | none => return suffix
  | some handle =>
      match (← get).handles.lookup handle with
      | some replacement => return replacement ++ suffix
      | none => fail (.at .node start (.undefinedHandle handle) place)

/-- Reads the anchor and the tag of a node, in either order. -/
def properties : Composing Properties := do
  let before ← anchorProperty
  let written ← tagProperty
  let anchor ← if before.isNone && written.isSome then anchorProperty else pure before
  let start := (before.map (·.2)).or (written.map (·.2))
  let tag ← match written, start with
    | some ((handle, suffix), place), some start => some <$> resolveTag start place handle suffix
    | _, _ => pure none
  return ⟨anchor.map (·.1), tag, start⟩

/-- Whether the tag is left to the form of the node. -/
def Properties.isImplicit (p : Properties) : Bool := p.tag.isNone || p.tag = some "!"

def Properties.tagOr (p : Properties) (tag : Tag) : Tag :=
  if p.isImplicit then tag else p.tag.elim tag .ofName

/-- Keeps the node that is read next under a number if it has an anchor.  The anchor must not be
taken; from now on the number stands for the node. -/
def anchored (p : Properties) (place : Mark) (read : Composing Node) : Composing Node :=
  match p.anchor with
  | none => read
  | some name => do
      let c ← get
      match c.anchors.lookup name with
      | some (_, first) => fail (.at (.duplicateAnchor name) first .secondOccurrence place)
      | none =>
          let index := c.shared.length
          set { c with
            anchors := (name, index, place) :: c.anchors, shared := c.shared ++ [Node.absent place] }
          let n ← read
          modify fun c => { c with shared := c.shared.set index n }
          return .shared index place

def scalarTag (p : Properties) (text : ScalarText) : Tag :=
  if (p.tag.isNone && text.isPlain) || p.tag = some "!" then
    text.value.text?.elim .str implicitTag
  else p.tagOr .str

def scalarNode (p : Properties) (place : Mark) (text : ScalarText) : Node :=
  .scalar (scalarTag p text) text place

/-- Reads a node unless one of the given tokens comes next; then the node is left out. -/
def nodeUnless (stops : List Token.Content) (place : Mark) (read : Composing Node) :
    Composing Node := do
  if stops.contains (← peek).content then return .absent place else read

/-- The value behind a colon; left out if there is no colon or nothing behind it. -/
def valueUnless (stops : List Token.Content) (read : Composing Node) : Composing Node := do
  let t ← peek
  if t.content = .value then
    drop
    nodeUnless stops t.stop read
  else return .absent t.start

/-! ## Nodes -/

mutual

/-- Reads a node; the fuel exceeds the number of tokens. -/
def node (isBlock allowsIndentless : Bool) : Nat → Composing Node
  | 0 => return .absent .start
  | fuel + 1 => do
      let first ← peek
      if let .alias name := first.content then
        drop
        match (← get).anchors.lookup name with
        | some (index, place) => return .shared index place
        | none => fail (.here (.undefinedAlias name) first.start)
      else
        let p ← properties
        let t ← peek
        let place := p.start.getD t.start
        let scalar (text : ScalarText) := anchored p place (pure (scalarNode p place text))
        let sequence (items : Composing (List Node)) := anchored p place do
          return .sequence (p.tagOr .seq) (← items) place
        let mapping (entries : Composing (List (Node × Node))) := anchored p place do
          return .mapping (p.tagOr .map) (← entries) place
        match t.content with
        | .scalar text =>
            drop
            scalar text
        | .flowSequenceStart => sequence (do drop; flowItems t.start true fuel)
        | .flowMappingStart => mapping (do drop; flowEntries t.start true fuel)
        | content =>
            if content = .blockEntry && allowsIndentless then sequence (indentlessItems fuel)
            else if content = .blockSequenceStart && isBlock then
              sequence (do drop; blockItems t.start fuel)
            else if content = .blockMappingStart && isBlock then
              mapping (do drop; blockEntries t.start fuel)
            else if p.anchor.isSome || p.tag.isSome then
              scalar ⟨.text "", p.isImplicit⟩
            else
              let activity := if isBlock then Activity.blockNode else .flowNode
              fail (.at activity place (.noContent content.shown) t.start)

/-- The items of a block sequence behind its start. -/
def blockItems (began : Mark) : Nat → Composing (List Node)
  | 0 => return []
  | fuel + 1 => do
      let t ← peek
      if t.content = .blockEntry then
        drop
        let item ← nodeUnless [.blockEntry, .blockEnd] t.stop (node true false fuel)
        return item :: (← blockItems began fuel)
      else if t.content = .blockEnd then
        drop
        return []
      else fail (.at .blockCollection began (.noBlockEnd t.content.shown) t.start)

/-- The items of a block sequence that is not indented under its key. -/
def indentlessItems : Nat → Composing (List Node)
  | 0 => return []
  | fuel + 1 => do
      let t ← peek
      if t.content = .blockEntry then
        drop
        let item ← nodeUnless [.blockEntry, .key, .value, .blockEnd] t.stop (node true false fuel)
        return item :: (← indentlessItems fuel)
      else return []

/-- The entries of a block mapping behind its start. -/
def blockEntries (began : Mark) : Nat → Composing (List (Node × Node))
  | 0 => return []
  | fuel + 1 => do
      let t ← peek
      if t.content = .key then
        drop
        let key ← nodeUnless [.key, .value, .blockEnd] t.stop (node true true fuel)
        let value ← valueUnless [.key, .value, .blockEnd] (node true true fuel)
        return (key, value) :: (← blockEntries began fuel)
      else if t.content = .blockEnd then
        drop
        return []
      else fail (.at .blockMapping began (.noBlockEnd t.content.shown) t.start)

/-- The items of a flow sequence; an entry of a mapping among them is a mapping of its own. -/
def flowItems (began : Mark) (isFirst : Bool) : Nat → Composing (List Node)
  | 0 => return []
  | fuel + 1 => do
      if ← isNext .flowSequenceEnd then
        drop
        return []
      else
        let t ← peek
        if !isFirst && t.content != .flowEntry then
          fail (.at .flowSequence began (.noSequenceEnd t.content.shown) t.start)
        else
          if !isFirst then drop
          let t ← peek
          if t.content = .key then
            drop
            let key ← nodeUnless [.value, .flowEntry, .flowSequenceEnd] t.stop
              (node false false fuel)
            let value ← valueUnless [.flowEntry, .flowSequenceEnd] (node false false fuel)
            return .mapping .map [(key, value)] t.start :: (← flowItems began false fuel)
          else if t.content = .flowSequenceEnd then
            drop
            return []
          else
            let item ← node false false fuel
            return item :: (← flowItems began false fuel)

/-- The entries of a flow mapping; an entry without a colon has no value. -/
def flowEntries (began : Mark) (isFirst : Bool) : Nat → Composing (List (Node × Node))
  | 0 => return []
  | fuel + 1 => do
      if ← isNext .flowMappingEnd then
        drop
        return []
      else
        let t ← peek
        if !isFirst && t.content != .flowEntry then
          fail (.at .flowMapping began (.noMappingEnd t.content.shown) t.start)
        else
          if !isFirst then drop
          let t ← peek
          if t.content = .key then
            drop
            let key ← nodeUnless [.value, .flowEntry, .flowMappingEnd] t.stop
              (node false false fuel)
            let value ← valueUnless [.flowEntry, .flowMappingEnd] (node false false fuel)
            return (key, value) :: (← flowEntries began false fuel)
          else if t.content = .flowMappingEnd then
            drop
            return []
          else
            let key ← node false false fuel
            let value := Node.absent (← peek).start
            return (key, value) :: (← flowEntries began false fuel)

end

/-! ## Documents -/

def fuel : Composing Nat := return 2 * (← get).tokens.length + 2

/-- The start of a document with its directives. -/
def explicitStart : Composing Unit := do
  let handles ← directives false [] (← fuel)
  let t ← peek
  if t.content != .documentStart then
    fail (.here (.noDocumentStart t.content.shown) t.start)
  else
    drop
    let defaults := defaultHandles.filter fun (handle, _) => (handles.lookup handle).isNone
    modify fun c => { c with handles := handles ++ defaults }

def isDirective : Token.Content → Bool
  | .directive _ => true
  | _ => false

/-- Reads the content of a document; it may be left out behind an explicit start. -/
def documentContent : Composing Node := do
  let t ← peek
  if isDirective t.content || [.documentStart, .documentEnd, .streamEnd].contains t.content then
    return .absent t.start
  else node true false (← fuel)

def document : Composing Node := do
  let t ← peek
  if isDirective t.content || t.content = .documentStart then
    explicitStart
    documentContent
  else
    modify fun c => { c with handles := defaultHandles }
    node true false (← fuel)

/-- Reads the only document of a text; none if the text has none. -/
def single : Composing (Option Node) := do
  if ← isNext .streamEnd then return none
  else
    let root ← document
    dropAll .documentEnd (← fuel)
    let t ← peek
    if t.content = .streamEnd then return some root
    else
      explicitStart
      fail (.at .singleDocument root.place .anotherDocument t.start)

end Composing

/-- The node of a document, and the nodes with an anchor by their numbers. -/
structure Document where
  root : Node
  shared : List Node

/-- The only document of a text. -/
def Document.read (s : List Char) : Except Error (Option Document) := do
  let (found, stop) := tokens s
  let (root, c) ← Composing.single.run ⟨found, stop, [], [], []⟩
  return root.map fun n => ⟨n, c.shared⟩

end Arranger.Yaml
