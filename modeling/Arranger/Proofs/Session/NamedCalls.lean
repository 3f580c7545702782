import Arranger.Proofs.Session.Invariant

/-!
# Calls about one arrangement

The calls that only name an arrangement, and the one that adds a track to it, leave what the library
makes of the workspace.  A get answers with the arrangement that is asked for and with no other one.
-/

namespace Arranger

open Library (Asked IsLegal fileName fileOf savedFiles)

variable {w v u : Workspace} {n : String} {a : Arrangement} {p : Path} {t : Track}

/-! ## Tools -/

namespace Tool

def nameArguments (n : String) : Arguments := ⟨[(.text "name", .text n)]⟩

theorem get_nameArguments (n : String) : (nameArguments n).get "name" = .text n := by
  simp [nameArguments, Arguments.get]

theorem name_nameArguments (n : String) : (nameArguments n).name "name" = .ofExcept (.ok n) := by
  rw [Arguments.name, get_nameArguments]
  rfl

theorem createArrangement_eq (n : String) (w : Workspace) :
    createArrangement (nameArguments n) w =
      (w.hold (.new n), .value (Reply.success [("arrangement", summary (.new n))])) := by
  unfold createArrangement
  rw [get_nameArguments, Action.bind_of_value (Library.create_eq n w)]
  rfl

theorem saveArrangement_of_saved
    (hasked : Asked n w v a) (hsave : Library.save a v = (u, .value p)) :
    ∃ fields, saveArrangement (nameArguments n) w = (u, .value (Reply.success fields)) := by
  unfold saveArrangement
  rw [name_nameArguments, Action.bind_of_value (Action.ofExcept_ok n),
    Action.bind_of_value (Library.require_of_asked hasked), Action.bind_of_value hsave]
  exact ⟨_, rfl⟩

theorem deleteArrangement_of_deleted (hdelete : Library.delete n w = (v, .value true)) :
    ∃ fields, deleteArrangement (nameArguments n) w = (v, .value (Reply.success fields)) := by
  unfold deleteArrangement
  rw [name_nameArguments, Action.bind_of_value (Action.ofExcept_ok n),
    Action.bind_of_value hdelete]
  exact ⟨_, rfl⟩

def trackArguments (n : String) (t : Track) : Arguments :=
  ⟨[(.text "arrangement", .text n), (.text "name", .text t.name), (.text "clips", .labels t.clips)]⟩

theorem get_trackArguments (n : String) (t : Track) :
    (trackArguments n t).get "arrangement" = .text n := by
  simp [trackArguments, Arguments.get]

theorem trackOf_trackArguments (n : String) (t : Track) : trackOf (trackArguments n t) = .ok t := by
  have hname : (trackArguments n t).get "name" = .text t.name := by
    simp [trackArguments, Arguments.get]
  have hclips : (trackArguments n t).get "clips" = .labels t.clips := by
    simp [trackArguments, Arguments.get]
  have hgiven : (if (Datum.labels t.clips).isGiven then Datum.labels t.clips else .list []) =
      .labels t.clips := by
    cases hempty : t.clips <;> rfl
  unfold trackOf
  rw [hname, hclips, hgiven]
  have hfields : Track.readFields (.record [("name", .text t.name),
      (Track.clipsField, .list (t.clips.map .ofLabel))]) = .ok t := t.readFields_fields
  unfold Notation.track
  simp only [Datum.labels, Datum.parts_list, Except.mapError, bind, Except.bind, hfields,
    Schema.Checked.titled]

theorem addTrack_of_asked (hasked : Asked n w v a) :
    ∃ fields, addTrack (trackArguments n t) w =
      (v.hold (a.addTrack t), .value (Reply.success fields)) := by
  have hname : (trackArguments n t).name "arrangement" = .ofExcept (.ok n) := by
    rw [Arguments.name, get_trackArguments]
    rfl
  have hedit : Library.addTrack n (trackOf (trackArguments n t)) w =
      (v.hold (a.addTrack t), .value (a.addTrack t)) := by
    rw [trackOf_trackArguments]
    exact Library.edit_of_ok (Library.require_of_asked hasked) rfl
  unfold addTrack
  rw [hname, Action.bind_of_value (Action.ofExcept_ok n)]
  exact ⟨_, Action.bind_of_value hedit _⟩

end Tool

/-! ## Steps -/

namespace Session

/-- A call of a tool that is given a name and nothing else. -/
def named (tool n : String) : Step := .call tool (Tool.nameArguments n)

def create (n : String) : Step := named "sclang_create_arrangement" n

def get (n : String) : Step := named "sclang_get_arrangement" n

def save (n : String) : Step := named "sclang_save_arrangement" n

def delete (n : String) : Step := named "sclang_delete_arrangement" n

def addTrack (n : String) (t : Track) : Step :=
  .call "sclang_add_track" (Tool.trackArguments n t)

theorem run_nil (s : State) : (run s []).1 = s := rfl

theorem run_singleton (s : State) (step : Step) : (run s [step]).1 = (step.run s).1 := rfl

theorem run_append (s : State) (front rest : List Step) :
    (run s (front ++ rest)).1 = (run (run s front).1 rest).1 := by
  induction front generalizing s with
  | nil => rfl
  | cons step front ih => exact ih (step.run s).1

/-- A step that succeeds leaves this workspace. -/
structure Leaves (step : Step) (s : State) (w : Workspace) : Prop where
  isSuccess : (step.run s).2.IsSuccess
  workspace_eq : (step.run s).1.workspace = w

variable {s : State} {tool : String} {args : Arguments}

theorem leaves_of_value
    {fields : List (String × Datum)}
    (h : toolAction tool args (tick s.workspace) = (w, .value (Reply.success fields))) :
    Leaves (.call tool args) s w where
  isSuccess := ⟨fields, value_of_ok (congrArg (·.2.result) h)⟩
  workspace_eq := (workspace_of_call s tool args).trans (congrArg (·.1) h)

theorem leaves_create (n : String) (s : State) :
    Leaves (create n) s ((tick s.workspace).hold (.new n)) :=
  leaves_of_value (Tool.createArrangement_eq n _)

theorem leaves_get (h : Asked n (tick s.workspace) w a) : Leaves (get n) s w :=
  leaves_of_value (Tool.getArrangement_of_asked h)

theorem leaves_save
    (h : Asked n (tick s.workspace) v a) (hsave : Library.save a v = (w, .value p)) :
    Leaves (save n) s w := by
  obtain ⟨fields, hvalue⟩ := Tool.saveArrangement_of_saved h hsave
  exact leaves_of_value hvalue

theorem leaves_delete (h : Library.delete n (tick s.workspace) = (w, .value true)) :
    Leaves (delete n) s w := by
  obtain ⟨fields, hvalue⟩ := Tool.deleteArrangement_of_deleted h
  exact leaves_of_value hvalue

theorem leaves_addTrack (h : Asked n (tick s.workspace) w a) :
    Leaves (addTrack n t) s (w.hold (a.addTrack t)) := by
  obtain ⟨fields, hvalue⟩ := Tool.addTrack_of_asked (t := t) h
  exact leaves_of_value hvalue

/-! ## Saving and deleting -/

variable {d m saved : String} {files : FileTree} {r : Rule} {b : Arrangement}

theorem isFiled_savedFiles
    (hlegal : IsLegal m) (hsame : fileName m = fileName saved) :
    IsFiled d (savedFiles w (home d) saved a) m a where
  isLegal := hlegal
  filed := by
    refine ⟨.text (Yaml.write a.datum), w.stamp, ?_, holds_written a⟩
    rw [Library.at?_savedFiles, if_pos hsame]

theorem isFiled_savedFiles_of_ne (hne : fileName m ≠ fileName saved) :
    IsFiled d (savedFiles w (home d) saved a) m b ↔ IsFiled d w.files m b := by
  have hat := Library.at?_savedFiles w (home d) saved a m
  rw [if_neg hne] at hat
  constructor
  · rintro ⟨hlegal, hfile⟩
    rw [hat] at hfile
    exact ⟨hlegal, hfile⟩
  · rintro ⟨hlegal, hfile⟩
    rw [← hat] at hfile
    exact ⟨hlegal, hfile⟩

/-- An arrangement that is asked for can be saved if its own name has a file. -/
theorem leaves_save_of_asked
    (ht : IsOpen d files) (hs : Sound d files anyRule s.workspace)
    (hasked : Asked n (tick s.workspace) v a) (hsaved : a.name = .text saved)
    (hlegal : IsLegal saved)
    (hfree : s.workspace.files.at? (fileOf (home d) saved) ≠ some .directory) :
    Leaves (save n) s ({ v with files := savedFiles v (home d) saved a }.hold a) := by
  have hsound := (hs.tick.asked ht isKept_anyRule hasked).1
  have hfree : v.files.at? (fileOf (home d) saved) ≠ some .directory := by
    rw [hasked.files_eq]
    exact hfree
  exact leaves_save hasked (Library.save_eq (hsound.isHome ht) hsaved hlegal hfree)

theorem leaves_delete_of_isFiled
    (ht : IsOpen d files) (hs : Sound d files r s.workspace)
    (hfiled : IsFiled d s.workspace.files n a) :
    Leaves (delete n) s { (tick s.workspace).dropCopy n with
      files := s.workspace.files.erase (fileOf (home d) n) } := by
  obtain ⟨content, stamp, hfile, -⟩ := hfiled.filed
  exact leaves_delete (Library.delete_of_filed (hs.tick.isHome ht) hfiled.isLegal hfile)

theorem at?_erase_fileOf (files : FileTree) (hsame : fileName m = fileName n) :
    (files.erase (fileOf (home d) m)).at? (fileOf (home d) n) = none := by
  rw [← Library.fileOf_inj.2 hsame]
  exact FileTree.at?_erase_self _ (Library.fileOf_ne_nil (home d) m)

theorem at?_erase_fileOf_of_ne (files : FileTree) (hne : fileName m ≠ fileName n) :
    (files.erase (fileOf (home d) m)).at? (fileOf (home d) n) =
      files.at? (fileOf (home d) n) := by
  apply FileTree.at?_erase_of_ne
  rwa [Ne, Library.fileOf_inj]

/-! ## What a get shows -/

/-- A get of the name answers the arrangement. -/
def Shows (s : State) (n : String) (a : Arrangement) : Prop :=
  ((get n).run s).2.value = Reply.success [("arrangement", a.datum)]

theorem shows_iff_asked : Shows s n a ↔ ∃ v, Asked n (tick s.workspace) v a := by
  constructor
  · intro h
    have hresult : (Tool.getArrangement (Tool.nameArguments n) (tick s.workspace)).2.result =
        .ok (((get n).run s).2.value) := ok_of_isSuccess ⟨_, h⟩
    rw [h] at hresult
    have hruns : Action.Runs (fun _ => True) (Tool.getArrangement (Tool.nameArguments n))
        (tick s.workspace) fun reply v => ∃ b, Asked n (tick s.workspace) v b ∧
          reply = Reply.success [("arrangement", b.datum)] := by
      unfold Tool.getArrangement
      rw [Tool.name_nameArguments]
      refine (Action.runs_ofExcept trivial).bind ?_
      rintro m _ ⟨rfl, hm⟩
      rw [← Except.ok.inj hm]
      refine (Library.require_runs trivial).bind ?_
      intro b v hasked
      exact Action.runs_pure ⟨b, hasked, rfl⟩
    obtain ⟨b, hasked, hreply⟩ := hruns.answers _ hresult
    have hdatum : a.datum = b.datum := by simpa [Reply.success, Datum.record] using hreply
    rw [Arrangement.datum_inj hdatum]
    exact ⟨_, hasked⟩
  · rintro ⟨v, hasked⟩
    exact value_of_ok (congrArg (·.2.result) (Tool.getArrangement_of_asked hasked))

theorem Shows.unique (ha : Shows s n a) (hb : Shows s n b) : a = b := by
  have hsame := ha.symm.trans hb
  exact Arrangement.datum_inj (by simpa [Reply.success, Datum.record] using hsame)

theorem shows_of_held (h : s.workspace.workingCopy? n = some a) : Shows s n a :=
  shows_iff_asked.2 ⟨_, .held h⟩

end Session

end Arranger
