import Arranger.Proofs.Session.KeptEdits

/-!
# Edits that are lost

A name that does not own its file loses edits.  If another name has the same file, asking for it
after a save brings back what was saved; if the file of another name holds an arrangement of the
name, asking for that one does; and if its own file holds an arrangement of another name, then it is
read again each time that the name is asked for.  So just the owners of their files keep all edits.
-/

namespace Arranger.Session

open Library (IsPlain fileName fileOf savedFiles)

variable {d m n : String} {t : FileTree} {s : State} {a b : Arrangement}

/-! ## Reading files again -/

theorem shows_of_isFiled
    (ht : IsOpen d t) (hs : Sound d t anyRule s.workspace)
    (hheld : s.workspace.workingCopy? n = none) (hfiled : IsFiled d s.workspace.files n a) :
    Shows s n a :=
  shows_iff_asked.2 ⟨_, (hs.tick.asked_iff_isFiled ht hheld).2 ⟨rfl, hfiled⟩⟩

/-- What the file of another name holds is answered under the name that it gives itself. -/
theorem shows_after_get
    (ht : IsOpen d t) (hs : Sound d t anyRule s.workspace)
    (hheld : s.workspace.workingCopy? m = none) (hfiled : IsFiled d s.workspace.files m a)
    (ha : a.name = .text n) : Shows ((get m).run s).1 n a := by
  have hasked := (hs.tick.asked_iff_isFiled ht hheld).2 ⟨rfl, hfiled⟩
  apply shows_of_held
  rw [(leaves_get hasked).workspace_eq, ← ha]
  exact Workspace.workingCopy?_hold _ a

/-- The file of another name brings its arrangement in the place of the edited one. -/
theorem shows_after_edit_and_get
    (ht : IsOpen d t) (hs : Sound d t anyRule s.workspace)
    (hheld : s.workspace.workingCopy? n = some b) (hb : b.name = .text n)
    (hother : s.workspace.workingCopy? m = none) (hfiled : IsFiled d s.workspace.files m a)
    (ha : a.name = .text n) (track : Track) :
    ((addTrack n track).run s).2.IsSuccess ∧
      Shows ((get m).run ((addTrack n track).run s).1).1 n a := by
  have hleaves : Leaves (addTrack n track) s ((tick s.workspace).hold (b.addTrack track)) :=
    leaves_addTrack (.held hheld)
  have hne : .text m ≠ b.name := by
    intro hm
    rw [hm, hb, hheld] at hother
    simp at hother
  have hedited : Sound d t anyRule ((addTrack n track).run s).1.workspace :=
    hs.step ht isKept_anyRule rfl
  refine ⟨hleaves.isSuccess, shows_after_get ht hedited ?_ ?_ ha⟩
  · rw [hleaves.workspace_eq, Workspace.workingCopy?_hold_eq]
    exact (if_neg hne).trans hother
  · rw [hleaves.workspace_eq]
    exact hfiled

/-- An arrangement of another name that is read from the file of the name is kept elsewhere. -/
theorem shows_after_edit_of_own_file
    (ht : IsOpen d t) (hs : Sound d t anyRule s.workspace)
    (hheld : s.workspace.workingCopy? n = none) (hfiled : IsFiled d s.workspace.files n a)
    (hne : .text n ≠ a.name) (track : Track) :
    ((addTrack n track).run s).2.IsSuccess ∧ Shows ((addTrack n track).run s).1 n a := by
  have hasked := (hs.tick.asked_iff_isFiled ht hheld).2 ⟨rfl, hfiled⟩
  have hleaves : Leaves (addTrack n track) s _ := leaves_addTrack hasked
  have hedited : Sound d t anyRule ((addTrack n track).run s).1.workspace :=
    hs.step ht isKept_anyRule rfl
  refine ⟨hleaves.isSuccess, shows_of_isFiled ht hedited ?_ ?_⟩
  · rw [hleaves.workspace_eq, Workspace.workingCopy?_hold_eq, Workspace.workingCopy?_hold_eq]
    exact (if_neg hne).trans ((if_neg hne).trans hheld)
  · rw [hleaves.workspace_eq]
    exact hfiled

/-! ## Saving for the first time -/

theorem workingCopy?_created (n : String) (m : Label) :
    ((create n).run (opened d t)).1.workspace.workingCopy? m =
      if m = .text n then some (.new n) else none := by
  rw [(leaves_create n _).workspace_eq, Workspace.workingCopy?_hold_eq]
  rfl

theorem files_created (n : String) : ((create n).run (opened d t)).1.workspace.files = t := by
  rw [(leaves_create n _).workspace_eq]
  rfl

/-- Making and saving an arrangement. -/
def firstSave (n : String) : List Step := [create n, save n]

theorem isInside_firstSave (n : String) : ∀ step ∈ firstSave n, step.isInside := by
  simp [firstSave, create, save, named, Step.isInside]

/-- What there is behind the first save: the new arrangement, and what other files held before. -/
structure HasSaved (d : String) (t : FileTree) (n : String) (s : State) : Prop where
  working : ∀ m, s.workspace.workingCopy? m = if m = .text n then some (.new n) else none
  filed : ∀ m, fileName m = fileName n → IsFiled d s.workspace.files m (.new n)
  others : ∀ m a, fileName m ≠ fileName n →
    (IsFiled d s.workspace.files m a ↔ IsFiled d t m a)

theorem hasSaved_firstSave (ht : IsOpen d t) (hroom : HasRoom d t n) :
    HasSaved d t n (run (opened d t) (firstSave n)).1 := by
  let made := ((create n).run (opened d t)).1
  have hmade : Sound d t anyRule made.workspace := (sound_opened ht).step ht isKept_anyRule rfl
  have hheld : made.workspace.workingCopy? n = some (.new n) :=
    (workingCopy?_created n n).trans (if_pos rfl)
  have hfiles : made.workspace.files = t := files_created n
  have hfree : made.workspace.files.at? (fileOf (home d) n) ≠ some .directory := by
    rw [hfiles]
    exact hroom.isFree
  let w := tick made.workspace
  have hleaves : Leaves (save n) made
      ({ w with files := savedFiles w (home d) n (.new n) }.hold (.new n)) :=
    leaves_save_of_asked ht hmade (.held hheld) rfl hroom.isLegal hfree
  have hworkspace : (run (opened d t) (firstSave n)).1.workspace = _ := hleaves.workspace_eq
  constructor
  · intro m
    rw [hworkspace, Workspace.workingCopy?_hold_eq]
    split
    · next hm => exact (if_pos hm).symm
    · exact workingCopy?_created n m
  · intro m hm
    rw [hworkspace]
    exact isFiled_savedFiles (w := w) (a := .new n) ((Library.isLegal_congr hm).2 hroom.isLegal) hm
  · intro m a hm
    have hothers := isFiled_savedFiles_of_ne (d := d) (w := w) (a := .new n) (b := a) hm
    rw [hworkspace, ← hfiles]
    exact hothers

/-! ## Sessions that lose an edit -/

theorem lead_ne_empty : "lead" ≠ "" := by decide

def lead (clips : List Label) : Track := ⟨⟨"lead", lead_ne_empty⟩, clips⟩

/-- If the same arrangement is answered whatever track was added, then an edit was lost. -/
theorem not_keepsEdits_of_shows
    (before after : List Step) (b : Arrangement) (hbefore : ∀ step ∈ before, step.isInside)
    (hafter : ∀ step ∈ after, step.isInside ∧ step ≠ .restart ∧ step.target? ≠ some (.text n))
    (hlost : ∀ track, ((addTrack n track).run (run s before).1).2.IsSuccess ∧
      Shows (run ((addTrack n track).run (run s before).1).1 after).1 n b) :
    ¬KeepsEdits s n := by
  intro hkeeps
  have hadded : ∀ track, ∃ a : Arrangement, b = a.addTrack track := by
    intro track
    obtain ⟨hsuccess, hshows⟩ := hlost track
    obtain ⟨a, c, -, hc, hkept⟩ := hkeeps before after "sclang_add_track"
      (Tool.trackArguments n track) _ hbefore rfl (Tool.get_trackArguments n track) hsuccess hafter
    rw [Tool.trackOf_trackArguments] at hc
    rw [hshows.unique hkept, ← Except.ok.inj hc]
    exact ⟨a, rfl⟩
  -- no arrangement can have just been given both of two tracks of one name
  obtain ⟨a, ha⟩ := hadded (lead [])
  obtain ⟨c, hc⟩ := hadded (lead ["x"])
  have hempty := a.track?_addTrack (lead [])
  rw [← ha, hc] at hempty
  have hsame := hempty.symm.trans (c.track?_addTrack (lead ["x"]))
  simp [lead] at hsame

theorem isInside_get (m : String) :
    ∀ step ∈ [get m], step.isInside ∧ step ≠ .restart ∧ step.target? ≠ some (.text n) := by
  intro step hstep
  obtain rfl := List.mem_singleton.1 hstep
  have htarget : (get m).target? = none := rfl
  refine ⟨rfl, by simp [get, named], ?_⟩
  rw [htarget]
  simp

theorem not_keepsEdits_of_other_file
    (ht : IsOpen d t) (hfiled : IsFiled d t m a) (hne : m ≠ n) (ha : a.name = .text n) :
    ¬KeepsEdits (opened d t) n := by
  have hbefore : ∀ step ∈ [create n], step.isInside := by simp [create, named, Step.isInside]
  have hmade : Sound d t anyRule (run (opened d t) [create n]).1.workspace := sound_run ht hbefore
  refine not_keepsEdits_of_shows [create n] [get m] a hbefore (isInside_get m) fun track => ?_
  rw [run_singleton, run_singleton] at *
  refine shows_after_edit_and_get (b := .new n) ht hmade ?_ rfl ?_ ?_ ha track
  · exact (workingCopy?_created _ _).trans (if_pos rfl)
  · exact (workingCopy?_created _ _).trans (if_neg (by simpa using hne))
  · rwa [files_created]

theorem not_keepsEdits_of_shared_file
    (ht : IsOpen d t) (hroom : HasRoom d t n) (hfile : fileName m = fileName n) (hne : m ≠ n) :
    ¬KeepsEdits (opened d t) n := by
  have hsaved := hasSaved_firstSave ht hroom
  have hsound := sound_run ht (isInside_firstSave n)
  refine not_keepsEdits_of_shows (firstSave n) [get m] (.new n) (isInside_firstSave n)
    (isInside_get m) fun track => ?_
  rw [run_singleton]
  refine shows_after_edit_and_get (b := .new n) ht hsound ?_ rfl ?_ (hsaved.filed m hfile) rfl track
  · exact (hsaved.working _).trans (if_pos rfl)
  · exact (hsaved.working _).trans (if_neg (by simpa using hne))

theorem not_keepsEdits_of_own_file
    (ht : IsOpen d t) (hfiled : IsFiled d t n a) (hne : .text n ≠ a.name) :
    ¬KeepsEdits (opened d t) n := by
  refine not_keepsEdits_of_shows [] [] a (by simp) (by simp) fun track => ?_
  rw [run_nil, run_nil]
  exact shows_after_edit_of_own_file ht (sound_opened ht) rfl hfiled hne track

/-! ## Owners -/

/-- Sessions keep the edits of a name just if the name owns its file: it shares the file with no
other name, and at the beginning no other file holds its arrangement and its own file holds no other
one. -/
theorem keepsEdits_iff (ht : IsOpen d t) (n : String) :
    KeepsEdits (opened d t) n ↔ OwnsFile d t n := by
  constructor
  · intro hkeeps
    -- each condition of an owner has a session of its own that loses an edit without it
    constructor
    · intro hroom
      by_contra hplain
      obtain ⟨m, hne, hfile⟩ := Library.exists_ne_of_not_isPlain hplain
      exact not_keepsEdits_of_shared_file ht hroom hfile hne hkeeps
    · intro name a hfiled
      constructor
      · intro ha
        by_contra hne
        exact not_keepsEdits_of_other_file ht hfiled hne ha hkeeps
      · rintro rfl
        by_contra hne
        exact not_keepsEdits_of_own_file ht hfiled (Ne.symm hne) hkeeps
  · exact OwnsFile.keepsEdits ht

theorem not_isFiled_start (d name : String) (a : Arrangement) :
    ¬IsFiled d (start d).workspace.files name a := by
  rintro ⟨-, content, stamp, hfile, -⟩
  rw [at?_start d (by simp [fileOf, home]) (by simp [fileOf])] at hfile
  simp at hfile

theorem hasRoom_start (d name : String) (h : Library.IsLegal name) :
    HasRoom d (start d).workspace.files name := by
  refine ⟨h, ?_⟩
  rw [at?_start d (by simp [fileOf, home]) (by simp [fileOf])]
  simp

theorem keepsEdits_start : KeepsEdits (start "d") "a" ∧ ¬KeepsEdits (start "d") "a b" := by
  have hplain := keepsEdits_iff (isOpen_start "d") "a"
  have hshared := keepsEdits_iff (isOpen_start "d") "a b"
  constructor
  · refine hplain.2 ⟨fun _ => by decide, ?_⟩
    intro name a hfiled
    exact absurd hfiled (not_isFiled_start "d" name a)
  · intro hkeeps
    have hroom := hasRoom_start "d" "a b" (by decide +kernel)
    exact absurd ((hshared.1 hkeeps).isPlain hroom) (by decide)

/-- A track is added after a save and answered, and after a get of the other name of the same file
it is gone. -/
theorem lost_track :
    let s := (run (start "d") (firstSave "a b")).1
    let edited := (addTrack "a b" (lead [])).run s
    edited.2.IsSuccess ∧ Shows edited.1 "a b" ((Arrangement.new "a b").addTrack (lead [])) ∧
      Shows ((get "a_b").run edited.1).1 "a b" (.new "a b") := by
  intro s edited
  have ht := isOpen_start "d"
  have hsaved := hasSaved_firstSave ht (hasRoom_start "d" "a b" (by decide +kernel))
  have hsound := sound_run ht (isInside_firstSave "a b")
  have hheld : s.workspace.workingCopy? "a b" = some (.new "a b") :=
    (hsaved.working "a b").trans (if_pos rfl)
  have hother : s.workspace.workingCopy? "a_b" = none :=
    (hsaved.working "a_b").trans (if_neg (by decide))
  have hfiled := hsaved.filed "a_b" (by decide +kernel)
  have hleaves : Leaves (addTrack "a b" (lead [])) s _ := leaves_addTrack (.held hheld)
  obtain ⟨hsuccess, hshows⟩ :=
    shows_after_edit_and_get ht hsound hheld rfl hother hfiled rfl (lead [])
  refine ⟨hsuccess, shows_of_held ?_, hshows⟩
  rw [hleaves.workspace_eq]
  exact Workspace.workingCopy?_hold _ _

end Arranger.Session
