import Arranger.Yaml.Cell
import Arranger.Yaml.Scalar

/-!
# Values of documents

A node denotes the value of the kind that its tag names, and the same node always the same value.
Collections are made empty and filled one after another, in the order in which they were met, so
that a collection may hold itself.  A mapping takes over the entries of the mappings that are merged
into it, its own entries last, so that these win.

A document may be nested as deeply as it likes: there is no stack here that could be too small.
-/

namespace Arranger.Yaml

/-- A document whose values are made. -/
structure Builder where
  cells : List Cell
  /-- The values of nodes by their positions; a collection is given by its number. -/
  values : List (Nat × Datum)
  collections : List Datum
  /-- The collections that are still to be filled, each with the position of its node. -/
  pending : List (Nat × Nat)

abbrev Building := StateT Builder (Except Error)

namespace Building

def fail {α : Type} (e : Error) : Building α := throw e

def cellAt (position : Nat) : Building Cell := do return (← get).cells.getD position default

def changeCell (position : Nat) (f : Cell → Cell) : Building Unit :=
  modify fun b => { b with cells := b.cells.modify position f }

/-! ## Merging -/

/-- The entries of a mapping, or of the mappings in a sequence, that are merged into the mapping at
`place`; of several mappings the last comes first.  `flatten` merges into a mapping itself. -/
def mergedFrom (flatten : Nat → Building Unit) (place : Mark) (position : Nat) :
    Building (List (Nat × Nat)) := do
  match ← cellAt position with
  | .mapping _ _ _ =>
      flatten position
      return (← cellAt position).entries
  | .sequence _ items _ =>
      let parts ← items.mapM fun item => do
        match ← cellAt item with
        | .mapping _ _ _ =>
            flatten item
            return (← cellAt item).entries
        | other => fail (.at .mapping place (.noMergeMapping other.form) other.place)
      return parts.reverse.flatten
  | .scalar _ _ inner => fail (.at .mapping place (.noMerge "scalar") inner)

/-- The sign for a default value becomes a text. -/
def settleKey (cells : List Cell) (position : Nat) : List Cell :=
  cells.modify position fun c => if c.tag = .value then c.withTag .str else c

/-- Takes the merged mappings out of the entries of a mapping from the entry `first` on and gives
what they add.  The fuel exceeds the number of merged mappings in the document. -/
def takeMerged : Nat → Nat → Nat → Building (List (Nat × Nat))
  | 0, _, _ => return []
  | fuel + 1, position, first => do
      let cells := (← get).cells
      let c ← cellAt position
      let isOwn (entry : Nat × Nat) : Bool := (cells.getD entry.1 default).tag != .merge
      let own := (c.entries.drop first).takeWhile isOwn
      modify fun b =>
        { b with cells := own.foldl (fun cells entry => settleKey cells entry.1) cells }
      match (c.entries.drop first).dropWhile isOwn with
      | [] => return []
      | (_, merged) :: _ =>
          let next := first + own.length
          changeCell position fun c => c.withEntries (c.entries.eraseIdx next)
          let flatten (other : Nat) : Building Unit := do
            let added ← takeMerged fuel other 0
            changeCell other fun c => c.withEntries (added ++ c.entries)
          let added ← mergedFrom flatten c.place merged
          return added ++ (← takeMerged fuel position next)

def countEntries (cells : List Cell) : Nat := (cells.flatMap Cell.entries).length

/-- Puts the entries of merged mappings in front of the own ones of a mapping. -/
def flatten (position : Nat) : Building Unit := do
  let added ← takeMerged (countEntries (← get).cells + 1) position 0
  changeCell position fun c => c.withEntries (added ++ c.entries)

/-! ## Scalars -/

/-- The text of a scalar, or of the default value of a mapping; the default value of a mapping may
be the mapping itself.  The fuel is the number of cells. -/
def textOf : Nat → Nat → Building ScalarText
  | 0, _ => fail .endless
  | fuel + 1, position => do
      match ← cellAt position with
      | .scalar _ text _ => return text
      | .sequence _ _ place => fail (.here (.noScalar "sequence") place)
      | .mapping _ entries place =>
          let cells := (← get).cells
          match entries.find? fun entry => (cells.getD entry.1 default).tag = .value with
          | some (_, value) => textOf fuel value
          | none => fail (.here (.noScalar "mapping") place)

/-- The time that a scalar writes; no mapping is taken for its default value. -/
def timeOf (c : Cell) (text : Label) : Except Error Datum :=
  match c with
  | .scalar _ _ _ => readTime text
  | _ => .error .noTimeText

/-- How a text is read at a node; not at all if its tag is not that of a scalar. -/
def reader? (c : Cell) : Option (Label → Except Error Datum) :=
  match c.tag with
  | .null => some fun _ => .ok .null
  | .bool => some readTruth
  | .int => some readInt
  | .float => some readFloat
  | .binary => some (readBytes c.place)
  | .timestamp => some (timeOf c)
  | .str => some fun text => .ok (.ofLabel text)
  | _ => none

def scalarValue (position : Nat) : Building Datum := do
  let c ← cellAt position
  match reader? c with
  | some read => do read (← textOf (← get).cells.length position).value
  | none => fail (.here (.unknownTag c.tag.name) c.place)

/-! ## Collections -/

/-- Adds a collection; its number. -/
def addCollection (content : Datum) : Building Nat := do
  let b ← get
  set { b with collections := b.collections ++ [content] }
  return b.collections.length

/-- The value of a node.  A new collection is to be filled later. -/
def valueAt (position : Nat) : Building Datum := do
  let b ← get
  match b.values.lookup position with
  | some value => return value
  | none =>
      if (← cellAt position).tag.isCollection then
        let number ← addCollection .null
        modify fun b => { b with
          values := (position, .looped [] number) :: b.values
          pending := b.pending ++ [(number, position)] }
        return .looped [] number
      else
        let value ← scalarValue position
        modify fun b => { b with values := (position, value) :: b.values }
        return value

/-- Enters a value under a key with the position of its node: in the place of the entry with the
same key, or at the end.  A key is the same as itself, even if it is no number. -/
def enter (position : Nat) (key value : Datum) :
    List (Nat × Datum × Datum) → List (Nat × Datum × Datum)
  | [] => [(position, key, value)]
  | (other, k, v) :: rest =>
      if other = position || k.sameKey key then (other, k, value) :: rest
      else (other, k, v) :: enter position key value rest

def isCollection : Datum → Bool
  | .looped _ _ => true
  | _ => false

/-- Enters the value of an entry under its key.  A collection is no key. -/
def withEntry (place : Mark) (found : List (Nat × Datum × Datum)) (entry : Nat × Nat) :
    Building (List (Nat × Datum × Datum)) := do
  let key ← valueAt entry.1
  if isCollection key then
    fail (.at .mapping place .unhashableKey (← cellAt entry.1).place)
  else
    let value ← valueAt entry.2
    return enter entry.1 key value found

/-- The entries of a mapping that is filled. -/
def entriesOf (position : Nat) : Building (List (Datum × Datum)) := do
  match ← cellAt position with
  | .mapping _ _ place =>
      flatten position
      let entries := (← cellAt position).entries
      let found ← entries.foldlM (withEntry place) []
      return found.map (·.2)
  | other => fail (.here (.noMapping other.form) other.place)

def itemsOf (position : Nat) : Building (List Datum) := do
  match ← cellAt position with
  | .sequence _ items _ => items.mapM valueAt
  | other => fail (.here (.noSequence other.form) other.place)

/-- The pair of an item of an ordered map, which has one entry. -/
def pairOf (activity : Activity) (place : Mark) (position : Nat) : Building Datum := do
  match ← cellAt position with
  | .mapping _ [(keyPosition, valuePosition)] _ =>
      let key ← valueAt keyPosition
      return .looped [] (← addCollection (.pair key (← valueAt valuePosition)))
  | .mapping _ entries inner => fail (.at activity place (.noSinglePair entries.length) inner)
  | other => fail (.at activity place (.noPairMapping other.form) other.place)

def pairsOf (activity : Activity) (position : Nat) : Building (List Datum) := do
  match ← cellAt position with
  | .sequence _ items place => items.mapM (pairOf activity place)
  | other => fail (.at activity other.place (.noPairSequence other.form) other.place)

/-- What a collection is filled with. -/
def contentOf (position : Nat) : Building Datum := do
  match (← cellAt position).tag with
  | .map => .map <$> entriesOf position
  | .set => (fun entries => .set (entries.map (·.1))) <$> entriesOf position
  | .omap => .list <$> pairsOf .orderedMap position
  | .pairs => .list <$> pairsOf .pairs position
  | _ => .list <$> itemsOf position

/-- Fills the pending collections; the fuel exceeds the number of nodes. -/
def fillAll : Nat → Building Unit
  | 0 => return ()
  | fuel + 1 => do
      match (← get).pending with
      | [] => return ()
      | (number, position) :: rest =>
          modify fun b => { b with pending := rest }
          let content ← contentOf position
          modify fun b => { b with collections := b.collections.set number content }
          fillAll fuel

end Building

/-! ## Results -/

/-- A value with all collections in their places; none if they are nested more than `levels`
deep. -/
def nested? (collections : List Datum) : Nat → Datum → Option Datum
  | 0, _ => none
  | levels + 1, d =>
      match d with
      | .looped _ number => match collections.getD number .null with
        | .list items => .list <$> items.mapM (nested? collections levels)
        | .pair first second => do
            return .pair (← nested? collections levels first) (← nested? collections levels second)
        | .map entries => .map <$> entries.mapM fun (key, value) => do
            return (key, ← nested? collections levels value)
        | other => some other
      | other => some other

/-- A value with the collections that it is made of.  Those that are nested more than `levels` deep
hold themselves. -/
def assembled (collections : List Datum) (levels : Nat) (d : Datum) : Datum :=
  let inPlace (part : Datum) : Datum := (nested? collections levels part).getD part
  (inPlace d).within (collections.map (Datum.mapParts inPlace))

/-- The value of a document.  Collections that do not hold themselves are nested less deeply than
twice the number of nodes, counting the pairs in an ordered map. -/
def Document.value (d : Document) : Except Error Datum := do
  let (root, cells) := d.lay
  let build : Building Datum := do
    let value ← Building.valueAt root
    Building.fillAll (cells.length + 1)
    return value
  let (value, b) ← build.run ⟨cells, [], [], []⟩
  return assembled b.collections (2 * cells.length + 2) value

/-- The value of the only document of a text; a text without a document is nothing. -/
def read (text : String) : Except Error Datum := do
  match ← Document.read text.toList with
  | none => return .null
  | some d => d.value

end Arranger.Yaml
