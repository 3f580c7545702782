import Arranger.Files.Error
import Arranger.Text.Blank

/-!
# Paths

A path leads from a root directory through named parts; empty parts and single points are left out,
two points lead back to the parent.  Joining an absolute path leads away from the root.

A name in a file system is a text.  Some systems also take broken texts, in which surrogates stand
for single bytes; which of them differs between systems, and such names are left out here.
-/

namespace Arranger

structure Path where
  /-- How the root is written. -/
  root : String
  /-- The place of the root directory, as the names that lead to it. -/
  base : List String
  parts : List String
  deriving DecidableEq, Repr

namespace Path

def atRoot (root : String) (base : List String) : Path := ⟨root, base, []⟩

def partsOf (text : String) : List String :=
  ((Text.splitOn (· = '/') text.toList).map String.ofList).filter fun part =>
    !part.isEmpty && part != "."

/-- The root of an absolute path: a slash, or two of them if exactly two stand in front. -/
def absoluteRoot (text : String) : String :=
  match text.toList with
  | '/' :: '/' :: '/' :: _ => "/"
  | '/' :: '/' :: _ => "//"
  | _ => "/"

def join (p : Path) (text : String) : Path :=
  if text.toList.head? = some '/' then ⟨absoluteRoot text, [], partsOf text⟩
  else { p with parts := p.parts ++ partsOf text }

/-- The path to the directory that holds what the path leads to. -/
def parent (p : Path) : Path := { p with parts := p.parts.dropLast }

def text (p : Path) : String :=
  let inside := "/".intercalate p.parts
  if p.root.toList.getLast? = some '/' then p.root ++ inside
  else if p.parts.isEmpty then p.root
  else p.root ++ "/" ++ inside

/-- A path as it is written without empty parts and single points. -/
def normalText (text : String) : String :=
  let inside := "/".intercalate (partsOf text)
  if text.toList.head? = some '/' then absoluteRoot text ++ inside
  else if inside.isEmpty then "."
  else inside

/-- The last part of a path. -/
def name (p : Path) : String := p.parts.getLast?.getD ""

def hasNull (p : Path) : Bool := p.parts.any (·.toList.contains '\x00')

end Path

end Arranger
