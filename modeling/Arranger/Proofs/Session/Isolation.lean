import Arranger.Proofs.Session.LostEdits
import Arranger.Proofs.Session.Recollection

/-!
# Saved arrangements that are kept apart

Saving or deleting one name leaves alone what is recalled of another one, unless they share a file
or the file of the first holds an arrangement whose own name leads to the file of the second.  In
both cases some session saves or deletes the first name and changes what is recalled of the second.
-/

namespace Arranger.Session

open Library (Asked IsLegal fileName fileOf savedFiles)

variable {d k m n tool : String} {t files : FileTree} {s : State} {w u : Workspace} {a b : Arrangement}
  {args : Arguments}

/-- Whenever a session saves or deletes `m`, what is recalled of `n` stays the same. -/
def Isolated (s : State) (m n : String) : Prop :=
  ∀ (before : List Step) (tool : String) (args : Arguments),
    (∀ step ∈ before, step.isInside) → tool ∈ Tool.storeTools → args.get "name" = .text m →
    let next := (Step.call tool args).run (run s before).1
    next.2.IsSuccess → KeepsRecollection (run s before).1 next.1 n

/-- The file of `n` is neither that of `m` nor that of an arrangement which the file of `m`
holds. -/
structure SparesFile (d : String) (t : FileTree) (m n : String) : Prop where
  fileName_ne : fileName m ≠ fileName n
  held_ne : ∀ a k, IsFiled d t m a → a.name = .text k → fileName k ≠ fileName n

/-! ## Files that are spared -/

/-- What the file of `m` holds does not lead to the file of `n`. -/
def sparingRule (m n : String) : Rule where
  copy := fun _ => True
  file := fun part content => fileName m = part → IsLegal m →
    ∀ a k, Holds content a → a.name = .text k → fileName k ≠ fileName n

theorem isKept_sparingRule (hne : fileName m ≠ fileName n) : (sparingRule m n).IsKept where
  new := fun _ => trivial
  rename := fun _ _ => trivial
  edit := fun _ _ => trivial
  read := fun _ _ => trivial
  save := by
    intro a saved _ hsaved hsame _ b k hholds hk
    rw [hholds.unique (holds_written a), hsaved, Label.text.injEq] at hk
    rwa [← hk, ← hsame]
  output := by
    rintro part content hending rfl
    exact absurd hending (Library.not_isEnding_fileName m)

theorem SparesFile.sound_run
    {steps : List Step} (ht : IsOpen d t) (hspares : SparesFile d t m n)
    (hsteps : ∀ step ∈ steps, step.isInside) :
    Sound d t (sparingRule m n) (run (opened d t) steps).1.workspace := by
  have hopened : Sound d t (sparingRule m n) (opened d t).workspace := by
    refine Sound.opened ht fun part content stamp hfile => ?_
    rintro rfl hlegal a k hholds
    exact hspares.held_ne a k ⟨hlegal, content, stamp, hfile, hholds⟩
  exact hopened.run ht (isKept_sparingRule hspares.fileName_ne) hsteps

/-- What is asked for by the name `m` has another file than `n`. -/
theorem Sound.fileName_ne_of_asked
    (ht : IsOpen d t) (hne : fileName m ≠ fileName n) (hw : Sound d t (sparingRule m n) w)
    (hasked : Asked m w u a) (hk : a.name = .text k) : fileName k ≠ fileName n := by
  obtain ⟨-, -, hname | hfiled⟩ := hw.asked ht (isKept_sparingRule hne) hasked
  · rw [hk, Label.text.injEq] at hname
    rwa [hname]
  · obtain ⟨content, stamp, hfile, hholds⟩ := hfiled.filed
    exact hw.filing.obeyed _ content stamp hfile rfl hfiled.isLegal a k hholds hk

theorem at?_savedFiles_of_ne (hne : fileName k ≠ fileName n) :
    (savedFiles u (home d) k a).at? (fileOf (home d) n) = u.files.at? (fileOf (home d) n) := by
  rw [Library.at?_savedFiles, if_neg hne.symm]

/-- A save or a deletion of `m` leaves the place of the file of `n` as it is. -/
theorem SparesFile.at?_of_success
    (ht : IsOpen d t) (hspares : SparesFile d t m n)
    (hs : Sound d t (sparingRule m n) s.workspace) (htool : tool ∈ Tool.storeTools)
    (hname : args.get "name" = .text m)
    (hsuccess : ((Step.call tool args).run s).2.IsSuccess) :
    ((Step.call tool args).run s).1.workspace.files.at? (fileOf (home d) n) =
      s.workspace.files.at? (fileOf (home d) n) := by
  have hne := hspares.fileName_ne
  rcases List.mem_pair.1 htool with rfl | rfl
  · obtain ⟨u, a, hasked, hsaves⟩ := exists_saves_of_success hname hsuccess
    have hu := (hs.tick.asked ht (isKept_sparingRule hne) hasked).1
    obtain ⟨saved, hsaved, -, hfiles⟩ := hu.files_of_saves ht hsaves
    have hother := hs.tick.fileName_ne_of_asked ht hne hasked hsaved
    rw [hfiles, at?_savedFiles_of_ne hother, hasked.files_eq]
    rfl
  · have hdeletes := deletes_of_success hname hsuccess
    rcases (hs.tick.files_of_deletes ht hdeletes).2 with hsame | herased
    · rw [hsame]
      rfl
    · rw [herased, at?_erase_fileOf_of_ne _ hne]
      rfl

theorem SparesFile.isolated (ht : IsOpen d t) (hspares : SparesFile d t m n) :
    Isolated (opened d t) m n := by
  intro before tool args hbefore htool hname next hsuccess
  have hr := isKept_sparingRule hspares.fileName_ne
  have hs := hspares.sound_run ht hbefore
  have hnext : Sound d t (sparingRule m n) next.1.workspace := hs.step ht hr rfl
  refine keepsRecollection_of_at? ht hs hnext fun _ => ?_
  exact hspares.at?_of_success ht hs htool hname hsuccess

/-- Nothing is ever recalled of a name that has no room for a file. -/
theorem isolated_of_not_hasRoom (ht : IsOpen d t) (hroom : ¬HasRoom d t n) :
    Isolated (opened d t) m n := by
  intro before tool args hbefore htool hname next hsuccess
  have hs := sound_run ht hbefore
  have hnext : Sound d t anyRule next.1.workspace := hs.step ht isKept_anyRule rfl
  refine keepsRecollection_of_at? ht hs hnext fun hlegal => ?_
  -- a legal name without room has a directory in the place of its file, and directories stay
  have hdirectory : t.at? (fileOf (home d) n) = some .directory := by
    by_contra hfree
    exact hroom ⟨hlegal, hfree⟩
  rw [hnext.filing.since _ hdirectory, hs.filing.since _ hdirectory]

/-! ## Files that are not spared -/

theorem not_isFiled_of_at? (h : files.at? (fileOf (home d) n) = none) : ¬IsFiled d files n a := by
  rintro ⟨-, content, stamp, hfile, -⟩
  rw [h] at hfile
  simp at hfile

/-- The deletion of a name takes the file away from every other name that shares it. -/
theorem not_isolated_of_shared_file
    (ht : IsOpen d t) (hroom : HasRoom d t n) (hfile : fileName m = fileName n) :
    ¬Isolated (opened d t) m n := by
  intro hisolated
  have hsaved := hasSaved_firstSave ht (hroom.of_fileName_eq hfile.symm)
  have hs := sound_run ht (isInside_firstSave m)
  have hkeeps := hisolated (firstSave m) "sclang_delete_arrangement" (Tool.nameArguments m)
    (isInside_firstSave m) (by simp [Tool.storeTools]) (Tool.get_nameArguments m)
  generalize (run (opened d t) (firstSave m)).1 = s at *
  have hleaves := leaves_delete_of_isFiled ht hs (hsaved.filed m rfl)
  have hnext : Sound d t anyRule ((delete m).run s).1.workspace := hs.step ht isKept_anyRule rfl
  have hbefore := (hs.recalled_iff ht).2 (hsaved.filed n hfile.symm)
  have hafter := (hnext.recalled_iff ht).1 (((hkeeps hleaves.isSuccess).recalled_iff _).2 hbefore)
  rw [hleaves.workspace_eq] at hafter
  exact not_isFiled_of_at? (at?_erase_fileOf _ hfile) hafter

/-- Making, saving and deleting an arrangement. -/
def firstDelete (n : String) : List Step := firstSave n ++ [delete n]

theorem isInside_firstDelete (n : String) : ∀ step ∈ firstDelete n, step.isInside := by
  simp [firstDelete, firstSave, create, save, delete, named, Step.isInside]

/-- What there is behind the first deletion: no copy of the name, and what other files held. -/
structure HasDeleted (d : String) (t : FileTree) (n : String) (s : State) : Prop where
  working : ∀ m : Label, m ≠ .text n → s.workspace.workingCopy? m = none
  absent : s.workspace.files.at? (fileOf (home d) n) = none
  others : ∀ m a, fileName m ≠ fileName n → IsFiled d t m a → IsFiled d s.workspace.files m a

theorem hasDeleted_firstDelete (ht : IsOpen d t) (hroom : HasRoom d t n) :
    HasDeleted d t n (run (opened d t) (firstDelete n)).1 := by
  have hsaved := hasSaved_firstSave ht hroom
  have hs := sound_run ht (isInside_firstSave n)
  rw [firstDelete, run_append, run_singleton]
  generalize (run (opened d t) (firstSave n)).1 = s at *
  have hworkspace := (leaves_delete_of_isFiled ht hs (hsaved.filed n rfl)).workspace_eq
  constructor
  · intro m hne
    rw [hworkspace]
    refine (Workspace.workingCopy?_dropCopy (tick s.workspace) n m).trans ((if_neg hne).trans ?_)
    exact (hsaved.working m).trans (if_neg hne)
  · rw [hworkspace]
    exact at?_erase_fileOf _ rfl
  · intro m a hne hfiled
    obtain ⟨hlegal, hfile⟩ := (hsaved.others m a hne).2 hfiled
    rw [hworkspace]
    refine ⟨hlegal, ?_⟩
    rwa [at?_erase_fileOf_of_ne _ (Ne.symm hne)]

/-- A save writes the file of the arrangement that is asked for, whatever name it was asked by. -/
theorem recalled_after_save
    (ht : IsOpen d t) (hs : Sound d t anyRule s.workspace) (hasked : Asked m (tick s.workspace) u a)
    (hk : a.name = .text k) (hname : fileName k = fileName n) (hlegal : IsLegal n)
    (hfree : s.workspace.files.at? (fileOf (home d) n) ≠ some .directory) :
    ((save m).run s).2.IsSuccess ∧ Recalled ((save m).run s).1 n a := by
  rw [← Library.fileOf_inj.2 hname] at hfree
  have hleaves :=
    leaves_save_of_asked ht hs hasked hk ((Library.isLegal_congr hname).2 hlegal) hfree
  have hnext : Sound d t anyRule ((save m).run s).1.workspace := hs.step ht isKept_anyRule rfl
  refine ⟨hleaves.isSuccess, (hnext.recalled_iff ht).2 ?_⟩
  rw [hleaves.workspace_eq]
  exact isFiled_savedFiles hlegal hname.symm

theorem not_isolated_of_held_name
    (ht : IsOpen d t) (hroom : HasRoom d t n) (hne : fileName m ≠ fileName n)
    (hfiled : IsFiled d t m a) (hk : a.name = .text k) (hname : fileName k = fileName n) :
    ¬Isolated (opened d t) m n := by
  intro hisolated
  -- after `n` was deleted, a save of `m` fills its file with the arrangement that `m` asks for
  have hdeleted := hasDeleted_firstDelete ht hroom
  have hs := sound_run ht (isInside_firstDelete n)
  have hkeeps := hisolated (firstDelete n) "sclang_save_arrangement" (Tool.nameArguments m)
    (isInside_firstDelete n) (by simp [Tool.storeTools]) (Tool.get_nameArguments m)
  generalize (run (opened d t) (firstDelete n)).1 = s at *
  have hheld := hdeleted.working m fun heq => hne (congrArg fileName (Label.text.inj heq))
  have hasked := (hs.tick.asked_iff_isFiled ht hheld).2 ⟨rfl, hdeleted.others m a hne hfiled⟩
  have hfree : s.workspace.files.at? (fileOf (home d) n) ≠ some .directory := by
    rw [hdeleted.absent]
    simp
  obtain ⟨hsuccess, hafter⟩ := recalled_after_save ht hs hasked hk hname hroom.isLegal hfree
  have hbefore := (hs.recalled_iff ht).1 (((hkeeps hsuccess).recalled_iff a).1 hafter)
  exact not_isFiled_of_at? hdeleted.absent hbefore

/-! ## Isolation -/

/-- A name is isolated from another one just if its file, as far as it can have one, is spared by
the other one at the beginning.  In every session, what is recalled of the name is what was saved
last. -/
theorem isolated_iff (ht : IsOpen d t) (m n : String) :
    (Isolated (opened d t) m n ↔ (HasRoom d t n → SparesFile d t m n)) ∧
      RecallsSaves (opened d t) n := by
  refine ⟨?_, recallsSaves ht n⟩
  constructor
  · intro hisolated hroom
    have hne : fileName m ≠ fileName n := fun hfile =>
      not_isolated_of_shared_file ht hroom hfile hisolated
    exact ⟨hne, fun a k hfiled hk hname =>
      not_isolated_of_held_name ht hroom hne hfiled hk hname hisolated⟩
  · intro hspares
    by_cases hroom : HasRoom d t n
    · exact (hspares hroom).isolated ht
    · exact isolated_of_not_hasRoom ht hroom

theorem isolated_start :
    Isolated (start "d") "a" "b" ∧ ¬Isolated (start "d") "a b" "a_b" ∧
      RecallsSaves (start "d") "b" := by
  have hapart := isolated_iff (isOpen_start "d") "a" "b"
  have hshared := isolated_iff (isOpen_start "d") "a b" "a_b"
  refine ⟨hapart.1.2 fun _ => ⟨by decide +kernel, ?_⟩, fun hisolated => ?_, hapart.2⟩
  · intro a k hfiled
    exact absurd hfiled (not_isFiled_start "d" "a" a)
  · have hspares := hshared.1.1 hisolated (hasRoom_start "d" "a_b" (by decide +kernel))
    exact hspares.fileName_ne (by decide +kernel)

/-- A working copy that is new and then edited, over the files that were there. -/
theorem made_and_edited (s : State) (n : String) (track : Track) :
    let edited := (run s [create n, addTrack n track]).1.workspace
    edited.workingCopy? n = some ((Arrangement.new n).addTrack track) ∧
      edited.files = s.workspace.files := by
  intro edited
  let made := ((create n).run s).1
  have hmade : made.workspace = (tick s.workspace).hold (.new n) := (leaves_create n s).workspace_eq
  have hheld : made.workspace.workingCopy? n = some (.new n) := by
    rw [hmade]
    exact Workspace.workingCopy?_hold _ (.new n)
  have hleaves : Leaves (addTrack n track) made _ := leaves_addTrack (.held hheld)
  have hedited : edited = (tick made.workspace).hold ((Arrangement.new n).addTrack track) :=
    hleaves.workspace_eq
  rw [hedited]
  refine ⟨Workspace.workingCopy?_hold _ ((Arrangement.new n).addTrack track), ?_⟩
  change made.workspace.files = _
  rw [hmade]
  rfl

/-- An arrangement is saved, and a save of the other name of the same file puts another one in its
place. -/
theorem replaced_arrangement :
    let s := (run (start "d") (firstSave "a b" ++ [create "a_b", addTrack "a_b" (lead [])])).1
    let saved := (save "a_b").run s
    Recalled s "a b" (.new "a b") ∧ saved.2.IsSuccess ∧
      Recalled saved.1 "a b" ((Arrangement.new "a_b").addTrack (lead [])) := by
  intro s saved
  have ht := isOpen_start "d"
  have hroom := hasRoom_start "d" "a b" (by decide +kernel)
  have hsaved := hasSaved_firstSave ht hroom
  obtain ⟨hheld, hfiles⟩ := made_and_edited (run (start "d") (firstSave "a b")).1 "a_b" (lead [])
  rw [← run_append] at hheld hfiles
  have hs : Sound "d" (start "d").workspace.files anyRule s.workspace :=
    sound_run ht (by simp [firstSave, create, save, addTrack, named, Step.isInside])
  have hfiled : IsFiled "d" s.workspace.files "a b" (.new "a b") := by
    rw [hfiles]
    exact hsaved.filed "a b" rfl
  obtain ⟨content, stamp, hfile, -⟩ := hfiled.filed
  refine ⟨(hs.recalled_iff ht).2 hfiled, recalled_after_save ht hs (.held hheld) rfl ?_
    hroom.isLegal ?_⟩
  · decide +kernel
  · rw [hfile]
    simp

end Arranger.Session
