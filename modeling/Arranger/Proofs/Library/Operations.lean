import Arranger.Proofs.Library.Documents
import Arranger.Proofs.Library.Names
import Arranger.Proofs.Workspace.Action

/-!
# What the operations of the library do

In a workspace whose directory of arrangements is there, or can be made, every operation is one
equation: what it answers and which workspace it leaves.  A working copy answers for its name;
otherwise the file of the name does, if it can be read.
-/

namespace Arranger.Library

/-- The directory of arrangements lies at a place, or nothing does yet. -/
structure IsHome (w : Workspace) (place : Place) : Prop where
  located : w.files.locate w.arrangements = .ok place
  isFree : w.files.at? place = some .directory ∨
    w.files.at? place = none ∧ w.files.entriesIn place = []

def fileOf (place : Place) (name : String) : Place := place ++ [fileName name]

variable {w : Workspace} {place : Place} {name : String}

theorem fileOf_ne_nil (place : Place) (name : String) : fileOf place name ≠ [] := by
  simp [fileOf]

theorem fileOf_inj {m n : String} : fileOf place m = fileOf place n ↔ fileName m = fileName n := by
  simp [fileOf]

theorem home_ne_fileOf (place : Place) (name : String) : place ≠ fileOf place name := by
  simp [fileOf]

theorem IsHome.free (hw : IsHome w place) :
    w.files.at? place = none ∨ w.files.at? place = some .directory := by
  rcases hw.isFree with hdirectory | ⟨hnone, -⟩
  · exact Or.inr hdirectory
  · exact Or.inl hnone

theorem IsHome.at?_fileOf_of_absent
    (hw : IsHome w place) (hplace : w.files.at? place = none) (name : String) :
    w.files.at? (fileOf place name) = none := by
  rcases hw.isFree with hdirectory | ⟨-, hempty⟩
  · rw [hplace] at hdirectory
    simp at hdirectory
  · rw [fileOf, FileTree.at?_append_eq_lookup, hempty]
    rfl

theorem IsHome.has_pathOf (hw : IsHome w place) (hname : IsLegal name) :
    w.files.has (pathOf w name) = .ok (w.files.at? (fileOf place name)).isSome := by
  rcases hw.free with hnone | hdirectory
  · rw [has_pathOf_of_absent hw.located hnone hname, hw.at?_fileOf_of_absent hnone]
    rfl
  · exact FileTree.has_of_located (locate_pathOf hw.located hdirectory hname)

theorem IsHome.locate_pathOf_of_file
    (hw : IsHome w place) (hname : IsLegal name) {entry : Entry}
    (hfile : w.files.at? (fileOf place name) = some entry) :
    w.files.locate (pathOf w name) = .ok (fileOf place name) := by
  rcases hw.free with hnone | hdirectory
  · rw [hw.at?_fileOf_of_absent hnone] at hfile
    simp at hfile
  · exact locate_pathOf hw.located hdirectory hname

/-! ## Asking for an arrangement -/

theorem get?_of_held {a : Arrangement} (hheld : w.workingCopy? name = some a) :
    get? name w = (w, .value (some a)) := by
  unfold get?
  rw [Action.bind_of_value Action.current_apply]
  simp only [hheld]
  rfl

theorem get?_of_not_has
    (hheld : w.workingCopy? name = none) (hhas : w.files.has (pathOf w name) = .ok false) :
    get? name w = (w, .value none) := by
  unfold get?
  rw [Action.bind_of_value Action.current_apply]
  simp only [hheld]
  rw [Action.bind_of_value (Action.inspectFiles_of_ok (f := (·.has (pathOf w name))) hhas)]
  rfl

theorem get?_of_absent
    (hw : IsHome w place) (hname : IsLegal name) (hheld : w.workingCopy? name = none)
    (hfile : w.files.at? (fileOf place name) = none) : get? name w = (w, .value none) := by
  have hhas : w.files.has (pathOf w name) = .ok false := by
    rw [hw.has_pathOf hname, hfile]
    rfl
  exact get?_of_not_has hheld hhas

/-- Without a working copy the file of a name answers, and becomes a working copy. -/
theorem get?_of_read
    (hheld : w.workingCopy? name = none) {content : Content} {stamp : Nat}
    (hread : w.files.read (pathOf w name) = .ok (content, stamp)) :
    get? name w = match fromDocument (pathOf w name) content with
      | .ok a => (w.hold a, .value (some a))
      | .error e => (w, .fail e) := by
  have hhas := FileTree.has_of_read hread
  unfold get?
  rw [Action.bind_of_value Action.current_apply]
  simp only [hheld]
  rw [Action.bind_of_value (Action.inspectFiles_of_ok (f := (·.has (pathOf w name))) hhas)]
  simp only [if_true]
  cases hdocument : fromDocument (pathOf w name) content with
  | error e =>
      refine Action.map_of_fail ?_ some
      unfold load
      rw [Action.bind_of_value (Action.inspectFiles_of_ok (f := (·.read (pathOf w name))) hread)]
      simp only [hdocument]
      exact Action.bind_of_fail (Action.ofExcept_error e) _
  | ok a =>
      refine Action.map_of_value ?_ some
      unfold load
      rw [Action.bind_of_value (Action.inspectFiles_of_ok (f := (·.read (pathOf w name))) hread)]
      simp only [hdocument]
      rw [Action.bind_of_value (Action.ofExcept_ok a),
        Action.bind_of_value (Action.change_apply _)]
      rfl

theorem get?_of_filed
    (hw : IsHome w place) (hname : IsLegal name) (hheld : w.workingCopy? name = none)
    {content : Content} {stamp : Nat}
    (hfile : w.files.at? (fileOf place name) = some (.file content stamp)) :
    get? name w = match fromDocument (pathOf w name) content with
      | .ok a => (w.hold a, .value (some a))
      | .error e => (w, .fail e) :=
  get?_of_read hheld (FileTree.read_of_located (hw.locate_pathOf_of_file hname hfile) hfile)

theorem require_of_some {v : Workspace} {a : Arrangement}
    (hget : get? name w = (v, .value (some a))) : require name w = (v, .value a) := by
  unfold require
  rw [Action.bind_of_value hget]
  rfl

theorem require_of_none {v : Workspace}
    (hget : get? name w = (v, .value none)) :
    require name w = (v, .fail (.missing .arrangement name)) := by
  unfold require
  rw [Action.bind_of_value hget]
  rfl

/-! ## Saving and deleting -/

/-- The files behind a save under a name. -/
def savedFiles (w : Workspace) (place : Place) (saved : String) (a : Arrangement) : FileTree :=
  (w.files.withDirectory place).put (fileOf place saved) (.file (.text (Yaml.write a.datum)) w.stamp)

theorem at?_savedFiles
    (w : Workspace) (place : Place) (saved : String) (a : Arrangement) (name : String) :
    (savedFiles w place saved a).at? (fileOf place name) =
      if fileName name = fileName saved then some (.file (.text (Yaml.write a.datum)) w.stamp)
      else w.files.at? (fileOf place name) := by
  unfold savedFiles
  split
  · next hsame =>
    rw [fileOf_inj.2 hsame, FileTree.at?_put_self _ (fileOf_ne_nil place saved)]
  · next hother =>
    have hne : fileOf place saved ≠ fileOf place name := fun heq => hother (fileOf_inj.1 heq).symm
    rw [FileTree.at?_put_of_ne _ hne, FileTree.at?_withDirectory_of_ne _ (home_ne_fileOf place name)]

theorem save_eq
    (hw : IsHome w place) {a : Arrangement} (hsaved : a.name = .text name) (hname : IsLegal name)
    (hfile : w.files.at? (fileOf place name) ≠ some .directory) :
    save a w =
      ({ w with files := savedFiles w place name a }.hold a, .value (pathOf w name)) := by
  have hmake := FileTree.makeDirectories_of_located hw.located hw.free
  let v : Workspace := { w with files := w.files.withDirectory place }
  have hdirectory : v.files.at? place = some .directory := FileTree.at?_withDirectory_self hw.free
  have hlocated : v.files.locate v.arrangements = .ok place :=
    (FileTree.keepsDirectories_withDirectory w.files place).locate hw.located
  have hlocate : v.files.locate (pathOf w name) = .ok (fileOf place name) :=
    locate_pathOf hlocated hdirectory hname
  have hfree : v.files.at? (fileOf place name) ≠ some .directory := by
    rwa [FileTree.at?_withDirectory_of_ne w.files (home_ne_fileOf place name)]
  have hwrite := FileTree.write_of_located hlocate hfree (.text (Yaml.write a.datum)) v.stamp
  unfold save
  rw [Action.bind_of_value Action.current_apply,
    Action.bind_of_value (Action.changeFiles_of_ok (f := (·.makeDirectories w.arrangements)) hmake)]
  have hstep : Action.writeFile (pathOf w name) (.text (Yaml.write a.datum)) v =
      ({ v with files := savedFiles w place name a }, .value ()) :=
    Action.changeFiles_of_ok (f := (·.write (pathOf w name) (.text (Yaml.write a.datum)) v.stamp))
      hwrite
  rw [hsaved, savePath, Action.bind_of_value (Action.ofExcept_ok _), Action.bind_of_value hstep,
    Action.bind_of_value (Action.change_apply _)]
  rfl

theorem delete_of_absent
    (hw : IsHome w place) (hname : IsLegal name)
    (hfile : w.files.at? (fileOf place name) = none) :
    delete name w = (w.dropCopy name, .value (w.workingCopy? name).isSome) := by
  have hhas : (w.dropCopy name).files.has (pathOf w name) = .ok false := by
    rw [Workspace.dropCopy_files, hw.has_pathOf hname, hfile]
    rfl
  unfold delete
  rw [Action.bind_of_value Action.current_apply, Action.bind_of_value (Action.change_apply _)]
  rw [Action.bind_of_value (Action.inspectFiles_of_ok (f := (·.has (pathOf w name))) hhas)]
  rfl

theorem delete_of_filed
    (hw : IsHome w place) (hname : IsLegal name) {content : Content} {stamp : Nat}
    (hfile : w.files.at? (fileOf place name) = some (.file content stamp)) :
    delete name w =
      ({ w.dropCopy name with files := w.files.erase (fileOf place name) }, .value true) := by
  have hlocate := hw.locate_pathOf_of_file hname hfile
  have hhas : (w.dropCopy name).files.has (pathOf w name) = .ok true := by
    rw [Workspace.dropCopy_files, FileTree.has_of_located hlocate, hfile]
    rfl
  have hremove : (w.dropCopy name).files.remove (pathOf w name) =
      .ok (w.files.erase (fileOf place name)) :=
    FileTree.remove_of_located hlocate hfile
  unfold delete
  rw [Action.bind_of_value Action.current_apply, Action.bind_of_value (Action.change_apply _)]
  rw [Action.bind_of_value (Action.inspectFiles_of_ok (f := (·.has (pathOf w name))) hhas)]
  simp only [if_true]
  rw [Action.bind_of_value (Action.changeFiles_of_ok (f := (·.remove (pathOf w name))) hremove)]
  rfl

/-! ## Making and editing -/

theorem readName_text (name : String) : readName (.text name) = .ok (.text name) := rfl

theorem create_eq (name : String) (w : Workspace) :
    create (.text name) w =
      (w.hold (Arrangement.new name), .value (Arrangement.new name)) := by
  unfold create
  rw [readName_text, Action.bind_of_value (Action.ofExcept_ok (Label.text name)),
    Action.bind_of_value (Action.change_apply _)]
  rfl

theorem duplicate_of_value
    {v : Workspace} {a : Arrangement} (hrequire : require name w = (v, .value a))
    (newName : String) :
    duplicate name (.text newName) w =
      (v.hold { a with name := newName }, .value { a with name := newName }) := by
  unfold duplicate
  rw [Action.bind_of_value hrequire, readName_text,
    Action.bind_of_value (Action.ofExcept_ok (Label.text newName)),
    Action.bind_of_value (Action.change_apply _)]
  rfl

theorem duplicate_of_fail
    {v : Workspace} {e : Fault} (hrequire : require name w = (v, .fail e)) (newName : Datum) :
    duplicate name newName w = (v, .fail e) :=
  Action.bind_of_fail hrequire _

theorem edit_of_ok
    {v : Workspace} {a b : Arrangement} {f : Arrangement → Except Fault Arrangement}
    (hrequire : require name w = (v, .value a)) (hf : f a = .ok b) :
    edit name f w = (v.hold b, .value b) := by
  unfold edit
  rw [Action.bind_of_value hrequire, hf, Action.bind_of_value (Action.ofExcept_ok b),
    Action.bind_of_value (Action.change_apply _)]
  rfl

theorem edit_of_error
    {v : Workspace} {a : Arrangement} {e : Fault} {f : Arrangement → Except Fault Arrangement}
    (hrequire : require name w = (v, .value a)) (hf : f a = .error e) :
    edit name f w = (v, .fail e) := by
  unfold edit
  rw [Action.bind_of_value hrequire, hf]
  exact Action.bind_of_fail (Action.ofExcept_error e) _

theorem edit_of_fail
    {v : Workspace} {e : Fault} (hrequire : require name w = (v, .fail e))
    (f : Arrangement → Except Fault Arrangement) : edit name f w = (v, .fail e) :=
  Action.bind_of_fail hrequire _

end Arranger.Library
