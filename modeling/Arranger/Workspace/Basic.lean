import Arranger.Arrangement.Document
import Arranger.Files.Tree

/-!
# Workspaces

A workspace has the files, the working copies of arrangements that are not necessarily saved, and
the stamp for files that are written now.  An action changes the workspace and has an outcome; what
it changed before a fault stays changed.
-/

namespace Arranger

structure Workspace where
  files : FileTree
  /-- The working copies, each under the name of its arrangement. -/
  working : List (Label × Arrangement)
  stamp : Nat
  /-- Where arrangements are saved. -/
  arrangements : Path
  /-- Where programs and renderings are written. -/
  output : Path

namespace Workspace

def workingCopy? (w : Workspace) (name : Label) : Option Arrangement := w.working.lookup name

def dropCopy (w : Workspace) (name : Label) : Workspace :=
  { w with working := w.working.filter (·.1 != name) }

/-- Keeps an arrangement as the working copy of its name. -/
def hold (w : Workspace) (a : Arrangement) : Workspace :=
  { w with working := (a.name, a) :: (w.dropCopy a.name).working }

theorem workingCopy?_hold (w : Workspace) (a : Arrangement) :
    (w.hold a).workingCopy? a.name = some a := by
  simp [workingCopy?, hold]

end Workspace

def Action (α : Type) := Workspace → Workspace × Outcome α

namespace Action

variable {α β : Type}

def value (a : α) : Action α := fun w => (w, .value a)

def fail (f : Fault) : Action α := fun w => (w, .fail f)

/-- The workspace as it is. -/
def current : Action Workspace := fun w => (w, .value w)

def change (f : Workspace → Workspace) : Action Unit := fun w => (f w, .value ())

/-- An outcome that does not depend on the workspace. -/
def ofOutcome (x : Outcome α) : Action α := fun w => (w, x)

def ofExcept (x : Except Fault α) : Action α := ofOutcome (.of x)

def warn (w : Warning) : Action Unit := ofOutcome (.warn w)

def andThen (x : Action α) (f : α → Action β) : Action β := fun w =>
  match x w with
  | (w, ⟨warnings, .ok a⟩) =>
      let (w, outcome) := f a w
      (w, ⟨warnings ++ outcome.warnings, outcome.result⟩)
  | (w, ⟨warnings, .error e⟩) => (w, ⟨warnings, .error e⟩)

instance : Monad Action where
  pure := value
  bind := andThen

/-- Changes the files, or fails and leaves them as they are. -/
def changeFiles (f : FileTree → Except FileError FileTree) : Action Unit := fun w =>
  match f w.files with
  | .ok files => ({ w with files }, .value ())
  | .error e => (w, .fail (.file e))

/-- Looks something up in the files. -/
def inspectFiles (f : FileTree → Except FileError α) : Action α := fun w =>
  (w, .of ((f w.files).mapError .file))

def writeFile (p : Path) (content : Content) : Action Unit := fun w =>
  changeFiles (·.write p content w.stamp) w

end Action

end Arranger
