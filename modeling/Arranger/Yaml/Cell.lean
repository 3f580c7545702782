import Arranger.Yaml.Node

/-!
# Cells

The nodes of a document are laid out as cells that refer to one another by their positions.  A node
with an anchor has one cell, whichever places it stands in, so that what changes there changes in
all of them.
-/

namespace Arranger.Yaml

inductive Cell where
  | scalar (tag : Tag) (text : ScalarText) (place : Mark)
  | sequence (tag : Tag) (items : List Nat) (place : Mark)
  | mapping (tag : Tag) (entries : List (Nat × Nat)) (place : Mark)

namespace Cell

/-- An empty scalar. -/
def blank (place : Mark) : Cell := scalar .null ⟨.text "", true⟩ place

instance : Inhabited Cell := ⟨blank .start⟩

def tag : Cell → Tag
  | scalar tag _ _ => tag
  | sequence tag _ _ => tag
  | mapping tag _ _ => tag

def place : Cell → Mark
  | scalar _ _ place => place
  | sequence _ _ place => place
  | mapping _ _ place => place

/-- What a node is called in a message. -/
def form : Cell → String
  | scalar _ _ _ => "scalar"
  | sequence _ _ _ => "sequence"
  | mapping _ _ _ => "mapping"

def withTag (tag : Tag) : Cell → Cell
  | scalar _ text place => scalar tag text place
  | sequence _ items place => sequence tag items place
  | mapping _ entries place => mapping tag entries place

def entries : Cell → List (Nat × Nat)
  | mapping _ entries _ => entries
  | _ => []

def withEntries (entries : List (Nat × Nat)) : Cell → Cell
  | mapping tag _ place => mapping tag entries place
  | other => other

end Cell

/-! ## Layout -/

mutual

/-- Lays out a node behind given cells.  Its position, and all cells. -/
def Node.lay (cells : List Cell) : Node → Nat × List Cell
  | .scalar tag text place => (cells.length, cells ++ [.scalar tag text place])
  | .sequence tag items place =>
      let (positions, cells) := layItems cells items
      (cells.length, cells ++ [.sequence tag positions place])
  | .mapping tag entries place =>
      let (positions, cells) := layEntries cells entries
      (cells.length, cells ++ [.mapping tag positions place])
  | .shared index _ => (index, cells)

def layItems (cells : List Cell) : List Node → List Nat × List Cell
  | [] => ([], cells)
  | item :: rest =>
      let (position, cells) := item.lay cells
      let (positions, cells) := layItems cells rest
      (position :: positions, cells)

def layEntries (cells : List Cell) : List (Node × Node) → List (Nat × Nat) × List Cell
  | [] => ([], cells)
  | (key, value) :: rest =>
      let (keyPosition, cells) := key.lay cells
      let (valuePosition, cells) := value.lay cells
      let (positions, cells) := layEntries cells rest
      ((keyPosition, valuePosition) :: positions, cells)

end

/-- Lays out a node with an anchor at the position of its number. -/
def layShared (cells : List Cell) (n : Node) (index : Nat) : List Cell :=
  let (position, cells) := n.lay cells
  cells.set index (cells.getD position (.blank n.place))

/-- The position of the root, and all cells.  The nodes with an anchor come first. -/
def Document.lay (d : Document) : Nat × List Cell :=
  let (root, cells) := d.root.lay (d.shared.map fun n => .blank n.place)
  (root, d.shared.zipIdx.foldl (fun cells (n, index) => layShared cells n index) cells)

end Arranger.Yaml
