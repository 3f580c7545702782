import Arranger.Proofs.Arrangement.Edits
import Arranger.Proofs.Files.Growth
import Arranger.Proofs.Library.Operations
import Arranger.Proofs.Workspace.Runs
import Arranger.Workspace.Export

/-!
# The effects of the library

What an operation may do to a workspace is said once, guards included: it asks for an arrangement,
which may make a working copy of a file, and then keeps, saves, writes out or drops something.  An
operation that fails in between has the effect of what it did before.  The arrangements that it
makes, changes or drops are those of its target.
-/

namespace Arranger.Library

/-- Asking for an arrangement: a working copy answers, or else a file, which is then kept under the
name that it gives itself. -/
inductive Asked (name : String) (w : Workspace) : Workspace → Arrangement → Prop where
  | held {a : Arrangement} (hheld : w.workingCopy? name = some a) : Asked name w w a
  | loaded {a : Arrangement} {content : Content} {stamp : Nat}
      (hheld : w.workingCopy? name = none)
      (hread : w.files.read (pathOf w name) = .ok (content, stamp))
      (hdocument : fromDocument (pathOf w name) content = .ok a) : Asked name w (w.hold a) a

/-- The paths along which directories are made begin where the ones of the workspace do. -/
def IsRooted (w : Workspace) (p : Path) : Prop :=
  p.base = [] ∨ p.base = w.arrangements.base ∨ p.base = w.output.base

/-- A program or a rendering in the output directory. -/
inductive IsOutput (w : Workspace) : Path → Prop where
  | program (name : String) : IsOutput w (w.output.join (name ++ Export.programSuffix))
  | rendering (name : String) : IsOutput w (w.output.join (name ++ Export.midiSuffix))

inductive Effect (target : Option Label) (w : Workspace) : Workspace → Prop where
  | unchanged : Effect target w w
  | asked {name : String} {v : Workspace} {a : Arrangement} (hasked : Asked name w v a) :
      Effect target w v
  | created {name : Label} (htarget : target = some name) : Effect target w (w.hold (.new name))
  | duplicated {name : String} {newName : Label} {v : Workspace} {a : Arrangement}
      (hasked : Asked name w v a) (htarget : target = some newName) :
      Effect target w (v.hold { a with name := newName })
  | edited {name : String} {v : Workspace} {a b : Arrangement} (hasked : Asked name w v a)
      (htarget : target = some (.text name)) (hedited : Edited a b) : Effect target w (v.hold b)
  | prepared {name : String} {v : Workspace} {a : Arrangement} {p : Path} {files : FileTree}
      (hasked : Asked name w v a) (hrooted : IsRooted v p)
      (hmake : v.files.makeDirectories p = .ok files) : Effect target w { v with files }
  | saved {name saved : String} {v : Workspace} {a : Arrangement} {made files : FileTree}
      (hasked : Asked name w v a) (hmake : v.files.makeDirectories v.arrangements = .ok made)
      (hname : a.name = .text saved)
      (hwrite : made.write (pathOf v saved) (.text (Yaml.write a.datum)) v.stamp = .ok files) :
      Effect target w ({ v with files }.hold a)
  | exported {name : String} {v : Workspace} {a : Arrangement} {p q : Path} {content : Content}
      {made files : FileTree} (hasked : Asked name w v a) (hrooted : IsRooted v p)
      (hmake : v.files.makeDirectories p = .ok made) (houtput : IsOutput v q)
      (hwrite : made.write q content v.stamp = .ok files) : Effect target w { v with files }
  | dropped {name : Label} (htarget : target = some name) : Effect target w (w.dropCopy name)
  | deleted {name : String} {files : FileTree} (htarget : target = some (.text name))
      (hremove : w.files.remove (pathOf w name) = .ok files) :
      Effect target w { w.dropCopy name with files }

variable {E : Workspace → Prop} {target : Option Label} {w v : Workspace} {a : Arrangement}
  {name : String}

open Arranger.Action (Runs)

/-! ## Asking -/

theorem load_runs
    (hheld : w.workingCopy? name = none) (hw : E w) :
    Runs E (load (pathOf w name)) w fun a v => Asked name w v a := by
  unfold load
  refine (Action.runs_inspectFiles hw).bind ?_
  rintro ⟨content, stamp⟩ _ ⟨rfl, hread⟩
  refine (Action.runs_ofExcept hw).bind ?_
  rintro a _ ⟨rfl, hdocument⟩
  have hloaded := Asked.loaded hheld hread hdocument
  refine (Action.runs_change (Q := fun _ v => Asked name w v a) hloaded).bind ?_
  intro _ v hasked
  exact Action.runs_pure hasked

theorem get?_runs
    (hw : E w) :
    Runs E (get? name) w fun found v =>
      (found = none ∧ v = w) ∨ ∃ a, found = some a ∧ Asked name w v a := by
  unfold get?
  refine (Action.runs_current (Q := fun current v => w = current ∧ w = v) ⟨rfl, rfl⟩).bind ?_
  rintro _ _ ⟨rfl, rfl⟩
  cases hheld : w.workingCopy? name with
  | some a => exact Action.runs_pure (Or.inr ⟨a, rfl, .held hheld⟩)
  | none =>
      refine (Action.runs_inspectFiles hw).bind ?_
      rintro isThere _ ⟨rfl, -⟩
      cases isThere with
      | false => exact Action.runs_pure (Or.inl ⟨rfl, rfl⟩)
      | true =>
          refine (load_runs hheld hw).bind ?_
          intro a v hasked
          exact Action.runs_pure (Or.inr ⟨a, rfl, hasked⟩)

/-- An arrangement that is not there changes nothing. -/
theorem require_runs (hw : E w) : Runs E (require name) w fun a v => Asked name w v a := by
  unfold require
  refine (get?_runs hw).bind ?_
  rintro found v (⟨rfl, rfl⟩ | ⟨a, rfl, hasked⟩)
  · exact Action.runs_fail hw
  · exact Action.runs_pure hasked

theorem require_of_asked (h : Asked name w v a) : require name w = (v, .value a) := by
  cases h with
  | held hheld => exact require_of_some (get?_of_held hheld)
  | loaded hheld hread hdocument =>
      have hget := get?_of_read hheld hread
      rw [hdocument] at hget
      exact require_of_some hget

theorem Asked.files_eq (h : Asked name w v a) : v.files = w.files := by
  cases h with
  | held _ => rfl
  | loaded _ _ _ => rfl

theorem Asked.output_eq (h : Asked name w v a) : v.output = w.output := by
  cases h with
  | held _ => rfl
  | loaded _ _ _ => rfl

theorem Asked.stamp_eq (h : Asked name w v a) : v.stamp = w.stamp := by
  cases h with
  | held _ => rfl
  | loaded _ _ _ => rfl

/-! ## Effects on working copies only -/

/-- An effect that leaves all files as they are. -/
structure QuietEffect (target : Option Label) (w v : Workspace) : Prop where
  effect : Effect target w v
  files_eq : v.files = w.files

namespace QuietEffect

theorem unchanged : QuietEffect target w w := ⟨.unchanged, rfl⟩

theorem asked (hasked : Asked name w v a) : QuietEffect target w v :=
  ⟨.asked hasked, hasked.files_eq⟩

theorem created {name : Label} (htarget : target = some name) :
    QuietEffect target w (w.hold (.new name)) :=
  ⟨.created htarget, rfl⟩

theorem duplicated
    {newName : Label} (hasked : Asked name w v a) (htarget : target = some newName) :
    QuietEffect target w (v.hold { a with name := newName }) :=
  ⟨.duplicated hasked htarget, hasked.files_eq⟩

theorem edited
    {b : Arrangement} (hasked : Asked name w v a) (htarget : target = some (.text name))
    (hedited : Edited a b) : QuietEffect target w (v.hold b) :=
  ⟨.edited hasked htarget hedited, hasked.files_eq⟩

theorem dropped {name : Label} (htarget : target = some name) :
    QuietEffect target w (w.dropCopy name) :=
  ⟨.dropped htarget, rfl⟩

end QuietEffect

/-! ## Keeping -/

theorem create_runs
    {given : Datum} (htarget : ∀ n, readName given = .ok n → target = some n) :
    Runs (QuietEffect target w) (create given) w fun _ v => QuietEffect target w v := by
  unfold create
  refine (Action.runs_ofExcept .unchanged).bind ?_
  rintro n _ ⟨rfl, hread⟩
  have heffect : QuietEffect target w (w.hold (.new n)) := .created (htarget n hread)
  refine (Action.runs_change (Q := fun _ v => QuietEffect target w v) heffect).bind ?_
  intro _ v hv
  exact Action.runs_pure hv

theorem duplicate_runs
    {given : Datum} (htarget : ∀ n, readName given = .ok n → target = some n) :
    Runs (QuietEffect target w) (duplicate name given) w fun _ v => QuietEffect target w v := by
  unfold duplicate
  refine (require_runs .unchanged).bind ?_
  intro a v hasked
  refine (Action.runs_ofExcept (.asked hasked)).bind ?_
  rintro n _ ⟨rfl, hread⟩
  have heffect := QuietEffect.duplicated hasked (htarget n hread)
  refine (Action.runs_change (Q := fun _ v => QuietEffect target w v) heffect).bind ?_
  intro _ u hu
  exact Action.runs_pure hu

/-- An edit makes something else of the arrangement of a name. -/
def Edits (name : String) (f : Arrangement → Except Fault Arrangement) (w v : Workspace)
    (b : Arrangement) : Prop :=
  ∃ u a, Asked name w u a ∧ f a = .ok b ∧ v = u.hold b

/-- An edit that fails has asked for the arrangement at most. -/
theorem edit_runs
    {f : Arrangement → Except Fault Arrangement} (hw : E w)
    (hasked : ∀ a v, Asked name w v a → E v) :
    Runs E (edit name f) w fun b v => Edits name f w v b := by
  unfold edit
  refine (require_runs hw).bind ?_
  intro a v hfound
  refine (Action.runs_ofExcept (hasked a v hfound)).bind ?_
  rintro b _ ⟨rfl, hb⟩
  refine (Action.runs_change (Q := fun _ u => u = v.hold b) rfl).bind ?_
  intro _ u hu
  exact Action.runs_pure ⟨v, a, hfound, hb, hu⟩

/-! ## Saving and deleting -/

/-- Saving makes the directory of arrangements, writes the file and keeps the working copy. -/
def Saves (a : Arrangement) (w v : Workspace) : Prop :=
  ∃ name made files, a.name = .text name ∧ w.files.makeDirectories w.arrangements = .ok made ∧
    made.write (pathOf w name) (.text (Yaml.write a.datum)) w.stamp = .ok files ∧
    v = { w with files }.hold a

/-- No file has a broken name. -/
theorem savePath_eq_ok_iff {l : Label} {p : Path} :
    savePath w l = .ok p ↔ ∃ name, l = .text name ∧ pathOf w name = p := by
  cases l <;> simp [savePath]

/-- A save that fails has made the directory at most. -/
theorem save_runs
    (hw : E w) (hmade : ∀ made, w.files.makeDirectories w.arrangements = .ok made →
      E { w with files := made }) :
    Runs E (save a) w fun _ v => Saves a w v := by
  unfold save
  refine (Action.runs_current (Q := fun current v => w = current ∧ w = v) ⟨rfl, rfl⟩).bind ?_
  rintro _ _ ⟨rfl, rfl⟩
  refine (Action.runs_changeFiles hw).bind ?_
  rintro - _ ⟨made, hmake, rfl⟩
  refine (Action.runs_ofExcept (hmade made hmake)).bind ?_
  rintro p _ ⟨rfl, hpath⟩
  obtain ⟨name, hname, rfl⟩ := savePath_eq_ok_iff.1 hpath
  refine (Action.runs_writeFile (hmade made hmake)).bind ?_
  rintro - _ ⟨files, hwrite, rfl⟩
  refine (Action.runs_change (Q := fun _ v => Saves a w v)
    ⟨name, made, files, hname, hmake, hwrite, rfl⟩).bind ?_
  intro _ v hv
  exact Action.runs_pure hv

/-- Deleting drops the working copy, and the file if there is one. -/
def Deletes (name : String) (w v : Workspace) : Prop :=
  w.files.has (pathOf w name) = .ok false ∧ v = w.dropCopy name ∨
    ∃ files, w.files.remove (pathOf w name) = .ok files ∧ v = { w.dropCopy name with files }

/-- A deletion that fails, or that finds nothing, has removed no file. -/
theorem delete_runs
    (htarget : target = some (.text name)) :
    Runs (QuietEffect target w) (delete name) w fun wasThere v =>
      Deletes name w v ∧ (wasThere = false → QuietEffect target w v) := by
  unfold delete
  refine (Action.runs_current (Q := fun current v => w = current ∧ w = v) ⟨rfl, rfl⟩).bind ?_
  rintro _ _ ⟨rfl, rfl⟩
  refine (Action.runs_change (Q := fun _ v => w.dropCopy name = v) rfl).bind ?_
  rintro - _ rfl
  have hdropped : QuietEffect target w (w.dropCopy name) := .dropped htarget
  refine (Action.runs_inspectFiles hdropped).bind ?_
  rintro isThere _ ⟨rfl, hhas⟩
  cases isThere with
  | false => exact Action.runs_pure ⟨Or.inl ⟨hhas, rfl⟩, fun _ => hdropped⟩
  | true =>
      refine (Action.runs_changeFiles hdropped).bind ?_
      rintro - _ ⟨files, hremove, rfl⟩
      exact Action.runs_pure ⟨Or.inr ⟨files, hremove, rfl⟩, by simp⟩

theorem Deletes.effect (h : Deletes name w v) (htarget : target = some (.text name)) :
    Effect target w v := by
  rcases h with ⟨-, rfl⟩ | ⟨files, hremove, rfl⟩
  · exact .dropped htarget
  · exact .deleted htarget hremove

/-! ## Programs and renderings -/

theorem isRooted_parent_join (w : Workspace) (text : String) :
    IsRooted w (w.output.join text).parent := by
  unfold Path.join Path.parent
  split
  · exact Or.inl rfl
  · exact Or.inr (Or.inr rfl)

/-- Writing something out makes directories and writes a file. -/
def Writes (directory p : Path) (content : Content) (w v : Workspace) : Prop :=
  ∃ made files, w.files.makeDirectories directory = .ok made ∧
    made.write p content w.stamp = .ok files ∧ v = { w with files }

theorem Writes.effect
    {u : Workspace} {directory p : Path} {content : Content} (h : Writes directory p content v u)
    (hasked : Asked name w v a) (hrooted : IsRooted v directory) (houtput : IsOutput v p) :
    Effect target w u := by
  obtain ⟨made, files, hmake, hwrite, rfl⟩ := h
  exact .exported hasked hrooted hmake houtput hwrite

/-- Asking for an arrangement and making directories for what is to be written. -/
inductive Prepares (w : Workspace) : Workspace → Prop where
  | unchanged : Prepares w w
  | asked {name : String} {v : Workspace} {a : Arrangement} (hasked : Asked name w v a) :
      Prepares w v
  | made {name : String} {v : Workspace} {a : Arrangement} {p : Path} {files : FileTree}
      (hasked : Asked name w v a) (hrooted : IsRooted v p)
      (hmake : v.files.makeDirectories p = .ok files) : Prepares w { v with files }

theorem Prepares.effect (h : Prepares w v) : Effect target w v := by
  cases h with
  | unchanged => exact .unchanged
  | asked hasked => exact .asked hasked
  | made hasked hrooted hmake => exact .prepared hasked hrooted hmake

theorem Prepares.sameFiles (h : Prepares w v) : w.files.SameFiles v.files := by
  cases h with
  | unchanged => exact .refl _
  | asked hasked =>
      rw [hasked.files_eq]
      exact .refl _
  | made hasked hrooted hmake =>
      rw [← hasked.files_eq]
      exact (FileTree.grows_makeDirectories hmake).sameFiles

theorem Writes.sameFilesBut
    {directory p : Path} {content : Content} (h : Writes directory p content w v) :
    ∃ target, v.files.locate p = .ok target ∧
      v.files.file? target = some (content, w.stamp) ∧
        FileTree.SameFilesBut target w.files v.files := by
  obtain ⟨made, files, hmake, hwrite, rfl⟩ := h
  obtain ⟨target, hlocate, hfile, hothers⟩ := FileTree.sameFilesBut_of_write hwrite
  have hmade := (FileTree.grows_makeDirectories hmake).sameFiles
  exact ⟨target, hlocate, hfile, (hmade.but target).trans hothers⟩

def programPath (w : Workspace) (output : String) : Path :=
  w.output.join (output ++ Export.programSuffix)

def midiPath (w : Workspace) (output : String) : Path :=
  w.output.join (output ++ Export.midiSuffix)

theorem program_runs
    {output : String} {source : Label} (hasked : Asked name w v a) :
    Runs
      (fun u => Prepares w u ∨ source.text? = none ∧
        Writes (programPath v output).parent (programPath v output) (.text "") v u)
      (Export.program output source) v fun _ u =>
        ∃ s, source = .text s ∧
          Writes (programPath v output).parent (programPath v output) (.text s) v u := by
  unfold Export.program
  refine (Action.runs_current (Q := fun current u => v = current ∧ v = u) ⟨rfl, rfl⟩).bind ?_
  rintro _ _ ⟨rfl, rfl⟩
  refine (Action.runs_changeFiles (.inl (.asked hasked))).bind ?_
  rintro - _ ⟨made, hmake, rfl⟩
  have hrooted : IsRooted v (programPath v output).parent := isRooted_parent_join v _
  refine (Action.runs_writeFile (.inl (.made hasked hrooted hmake))).bind ?_
  rintro - _ ⟨files, hwrite, rfl⟩
  have hwrites : Writes (programPath v output).parent (programPath v output)
      (.text (source.text?.getD "")) v { v with files } := ⟨made, files, hmake, hwrite, rfl⟩
  -- The file is emptied by now, and the fault of a broken program comes too late.
  cases source with
  | text s => exact Action.runs_pure ⟨s, rfl, hwrites⟩
  | broken t => exact Action.runs_fail (.inr ⟨rfl, hwrites⟩)

/-- What can be written of a rendering is in its file, whether or not it is the whole of it. -/
theorem midi_runs
    {output : String} {song : Midi.Song} (hasked : Asked name w v a) :
    Runs
      (fun u => Prepares w u ∨ song.write.fault ≠ none ∧
        Writes v.output (midiPath v output) (.bytes song.write.bytes) v u)
      (Export.midi output song) v fun _ u =>
        Writes v.output (midiPath v output) (.bytes song.write.bytes) v u := by
  unfold Export.midi
  refine (Action.runs_current (Q := fun current u => v = current ∧ v = u) ⟨rfl, rfl⟩).bind ?_
  rintro _ _ ⟨rfl, rfl⟩
  refine (Action.runs_changeFiles (.inl (.asked hasked))).bind ?_
  rintro - _ ⟨made, hmake, rfl⟩
  have hrooted : IsRooted v v.output := Or.inr (Or.inr rfl)
  refine (Action.runs_writeFile (.inl (.made hasked hrooted hmake))).bind ?_
  rintro - _ ⟨files, hwrite, rfl⟩
  have hwrites : Writes v.output (midiPath v output) (.bytes song.write.bytes) v
      { v with files } := ⟨made, files, hmake, hwrite, rfl⟩
  -- The file is written by now, and a fault comes too late to leave it as it was.
  cases hfault : song.write.fault with
  | none => exact Action.runs_pure hwrites
  | some fault => exact Action.runs_fail (Or.inr ⟨by simp, hwrites⟩)

end Arranger.Library
