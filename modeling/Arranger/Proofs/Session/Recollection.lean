import Arranger.Proofs.Session.NamedCalls

/-!
# What a restart leaves

A restart leaves the files, so a get of a name then answers what its file holds.  This is what a
save of the name has shown before, and nothing behind a deletion; no other step changes it, whatever
it writes elsewhere.
-/

namespace Arranger

open Library (Asked Deletes IsHome IsLegal Saves fileName fileOf fromDocument pathOf savedFiles)

variable {d m n tool : String} {t : FileTree} {r : Rule} {w u v : Workspace} {a b : Arrangement}
  {args : Arguments} {place : Place}

/-! ## Answers from files -/

namespace Library

theorem get?_of_directory
    (hw : IsHome w place) (hname : IsLegal n) (hheld : w.workingCopy? n = none)
    (hplace : w.files.at? (fileOf place n) = some .directory) :
    get? n w = (w, .fail (.file (.isDirectory (pathOf w n).text))) := by
  have hlocate := hw.locate_pathOf_of_file hname hplace
  have hhas : w.files.has (pathOf w n) = .ok true := by
    rw [FileTree.has_of_located hlocate, hplace]
    rfl
  have hread : w.files.read (pathOf w n) = .error (.isDirectory (pathOf w n).text) := by
    simp [FileTree.read, hlocate, hplace, bind, Except.bind]
  unfold get?
  rw [Action.bind_of_value Action.current_apply]
  simp only [hheld]
  rw [Action.bind_of_value (Action.inspectFiles_of_ok (f := (·.has (pathOf w n))) hhas)]
  refine Action.map_of_fail ?_ some
  unfold load
  exact Action.bind_of_fail (Action.inspectFiles_of_error (f := (·.read (pathOf w n))) hread) _

/-- What is found for a name without a working copy, by the entry in the place of its file. -/
def outcomeOf (p : Path) (n : String) : Option Entry → Outcome Arrangement
  | none => .fail (.missing .arrangement n)
  | some .directory => .fail (.file (.isDirectory p.text))
  | some (.file content _) => .of (fromDocument p content)

theorem require_outcome
    (hw : IsHome w place) (hname : IsLegal n) (hheld : w.workingCopy? n = none) :
    (require n w).2 = outcomeOf (pathOf w n) n (w.files.at? (fileOf place n)) := by
  cases hentry : w.files.at? (fileOf place n) with
  | none =>
      rw [require_of_none (get?_of_absent hw hname hheld hentry)]
      rfl
  | some entry =>
      cases entry with
      | directory =>
          unfold require
          rw [Action.bind_of_fail (get?_of_directory hw hname hheld hentry)]
          rfl
      | file content stamp =>
          have hget := get?_of_filed hw hname hheld hentry
          rw [outcomeOf]
          cases hdocument : fromDocument (pathOf w n) content with
          | error e =>
              rw [hdocument] at hget
              unfold require
              rw [Action.bind_of_fail hget]
              rfl
          | ok a =>
              rw [hdocument] at hget
              rw [require_of_some hget]
              rfl

end Library

/-! ## Files that a call leaves -/

namespace Tool

open Arranger.Action (Runs)

theorem success_of_store_call
    {reply : Datum} (htool : tool ∈ storeTools)
    (h : (Session.toolAction tool args w).2.result = .ok reply) :
    ∃ fields, reply = Reply.success fields := by
  rcases List.mem_pair.1 htool with rfl | rfl
  · have hruns : Runs (fun _ => True) (saveArrangement args) w fun reply _ =>
        ∃ fields, reply = Reply.success fields := by
      unfold saveArrangement
      refine (name_runs trivial).bind fun n v _ => ?_
      refine (Library.require_runs trivial).bind fun a v _ => ?_
      refine (Library.save_runs trivial fun _ _ => trivial).bind fun p v _ => ?_
      exact Action.runs_pure ⟨_, rfl⟩
    exact hruns.answers reply h
  · have hruns : Runs (fun _ => True) (deleteArrangement args) w fun reply _ =>
        ∃ fields, reply = Reply.success fields := by
      unfold deleteArrangement
      refine (name_runs trivial).bind fun n v _ => ?_
      refine ((Library.delete_runs rfl).weaken fun _ _ => trivial).bind fun wasThere v _ => ?_
      cases wasThere with
      | false => exact Action.runs_fail trivial
      | true => exact Action.runs_pure ⟨_, rfl⟩
    exact hruns.answers reply h

/-- Only a save and a deletion that succeed change files of arrangements. -/
theorem file?_fileOf_of_call
    (htool : tool ∈ storeTools → ∃ e, (Session.toolAction tool args w).2.result = .error e)
    (place : Place) (n : String) :
    (Session.toolAction tool args w).1.files.file? (fileOf place n) =
      w.files.file? (fileOf place n) := by
  by_cases hstore : tool ∈ storeTools
  · obtain ⟨e, he⟩ := htool hstore
    rcases List.mem_pair.1 hstore with rfl | rfl
    · exact (saveArrangement_runs.fails e he).sameFiles _
    · have hquiet := deleteArrangement_runs.fails e he
      exact congrArg (FileTree.file? · _) hquiet.files_eq
  cases hexport : exportSuffix? tool with
  | none =>
      have hruns : Runs _ (Session.toolAction tool args) w _ := quiet_call_runs hstore hexport
      exact congrArg (FileTree.file? · _) hruns.leaves.files_eq
  | some suffix =>
      have hruns : Runs _ (Session.toolAction tool args) w _ := export_call_runs hexport
      rcases (hruns.mono fun _ _ => Or.inr).leaves with hprepares | hwrites
      · exact hprepares.sameFiles _
      · obtain ⟨-, hasked, -, houtput, hwritten⟩ := hwrites
        obtain ⟨target, hlocate, -, hothers⟩ := hwritten.sameFilesBut
        rw [← hasked.files_eq]
        apply hothers
        rintro rfl
        obtain ⟨parent, part, hlast, hending⟩ := houtput.last_of_locate hlocate
        obtain ⟨-, hpart⟩ := List.append_inj' hlast rfl
        rw [← (List.cons.inj hpart).1] at hending
        exact Library.not_isEnding_fileName n hending

end Tool

namespace Session

variable {s s' : State}

/-! ## Recollections -/

/-- The answer to a get of the name after a restart. -/
def recollection (s : State) (n : String) : Answer := ((get n).run (Step.restart.run s).1).2

/-- A get of the name after a restart answers the arrangement. -/
def Recalled (s : State) (n : String) (a : Arrangement) : Prop := Shows (Step.restart.run s).1 n a

theorem Sound.recalled_iff (ht : IsOpen d t) (hs : Sound d t r s.workspace) :
    Recalled s n a ↔ IsFiled d s.workspace.files n a := by
  have hrestarted := hs.tick.forgetCopies.tick
  refine shows_iff_asked.trans ?_
  constructor
  · rintro ⟨v, hasked⟩
    exact ((hrestarted.asked_iff_isFiled ht rfl).1 hasked).2
  · intro hfiled
    exact ⟨_, (hrestarted.asked_iff_isFiled ht rfl).2 ⟨rfl, hfiled⟩⟩

theorem outcome_getArrangement (n : String) (w : Workspace) :
    (Tool.getArrangement (Tool.nameArguments n) w).2 =
      (Library.require n w).2.andThen fun a => .value (Reply.success [("arrangement", a.datum)]) := by
  unfold Tool.getArrangement
  rw [Tool.name_nameArguments, Action.bind_of_value (Action.ofExcept_ok n)]
  change (Action.andThen _ _ w).2 = _
  unfold Action.andThen Outcome.andThen
  rcases Library.require n w with ⟨v, warnings, result⟩
  cases result <;> rfl

theorem answer_congr
    {x y : Action Datum} (h : (x w).2 = (y v).2) :
    (answerOf (Reply.of x) w).2 = (answerOf (Reply.of y) v).2 := by
  unfold answerOf Reply.of
  rcases hx : x w with ⟨u, warnings, result⟩
  rw [hx] at h
  rcases hy : y v with ⟨u', warnings', result'⟩
  rw [hy] at h
  obtain ⟨rfl, rfl⟩ := Outcome.mk.inj h
  cases result <;> rfl

theorem workspace_of_restart (s : State) :
    (Step.restart.run s).1.workspace = forgetCopies (tick s.workspace) := rfl

theorem answer_of_get (s : State) (n : String) :
    ((get n).run s).2 =
      (answerOf (Reply.of (Tool.getArrangement (Tool.nameArguments n))) (tick s.workspace)).2 := by
  rfl

theorem recollection_eq (s : State) (n : String) :
    recollection s n = (answerOf (Reply.of (Tool.getArrangement (Tool.nameArguments n)))
      (tick (forgetCopies (tick s.workspace)))).2 := by
  rw [recollection, answer_of_get, workspace_of_restart]

/-- The answer depends on the place of the file only. -/
theorem recollection_congr
    (ht : IsOpen d t) (hs : Sound d t r s.workspace) (hs' : Sound d t r s'.workspace)
    (hname : IsLegal n)
    (hfile : s'.workspace.files.at? (fileOf (home d) n) =
      s.workspace.files.at? (fileOf (home d) n)) : recollection s' n = recollection s n := by
  have hhome := (hs.tick.forgetCopies.tick).isHome ht
  have hhome' := (hs'.tick.forgetCopies.tick).isHome ht
  have hdirectory : s'.workspace.arrangements = s.workspace.arrangements :=
    hs'.arrangements.trans hs.arrangements.symm
  have hpath : pathOf (tick (forgetCopies (tick s'.workspace))) n =
      pathOf (tick (forgetCopies (tick s.workspace))) n := by
    change s'.workspace.arrangements.join _ = s.workspace.arrangements.join _
    rw [hdirectory]
  rw [recollection_eq, recollection_eq]
  apply answer_congr
  rw [outcome_getArrangement, outcome_getArrangement, Library.require_outcome hhome hname rfl,
    Library.require_outcome hhome' hname rfl, hpath]
  change (Library.outcomeOf _ n (s'.workspace.files.at? _)).andThen _ = _
  rw [hfile]
  rfl

/-- The same arrangement, if any, is recalled of the name, and the answer is the same altogether if
the name can have a file. -/
structure KeepsRecollection (s s' : State) (n : String) : Prop where
  recalled_iff : ∀ a, Recalled s' n a ↔ Recalled s n a
  recollection_eq : IsLegal n → recollection s' n = recollection s n

theorem keepsRecollection_of_at?
    (ht : IsOpen d t) (hs : Sound d t r s.workspace) (hs' : Sound d t r s'.workspace)
    (hfile : IsLegal n → s'.workspace.files.at? (fileOf (home d) n) =
      s.workspace.files.at? (fileOf (home d) n)) : KeepsRecollection s s' n where
  recalled_iff := by
    intro a
    rw [hs.recalled_iff ht, hs'.recalled_iff ht]
    constructor
    · rintro ⟨hlegal, hfiled⟩
      exact ⟨hlegal, hfile hlegal ▸ hfiled⟩
    · rintro ⟨hlegal, hfiled⟩
      exact ⟨hlegal, (hfile hlegal).symm ▸ hfiled⟩
  recollection_eq := fun hlegal => recollection_congr ht hs hs' hlegal (hfile hlegal)

/-! ## Saves and deletions -/

theorem Sound.files_of_saves
    (ht : IsOpen d t) (hu : Sound d t r u) (h : Saves a u v) :
    ∃ saved, a.name = .text saved ∧ IsLegal saved ∧ v.files = savedFiles u (home d) saved a := by
  obtain ⟨saved, made, files, hname, hmake, hwrite, rfl⟩ := h
  have hlocated := hu.located ht
  rw [FileTree.makeDirectories_of_located hlocated hu.filing.free] at hmake
  obtain rfl := Except.ok.inj hmake
  obtain ⟨q, hlocate, -, rfl⟩ := FileTree.write_inv hwrite
  have hmade := FileTree.at?_withDirectory_self hu.filing.free
  have hkept := (FileTree.keepsDirectories_withDirectory u.files (home d)).locate hlocated
  obtain ⟨hlegal, -, rfl⟩ := Library.locate_pathOf_inv
    (w := { u with files := u.files.withDirectory (home d) }) hkept (Or.inr hmade) hlocate
  exact ⟨saved, hname, hlegal, rfl⟩

theorem Sound.files_of_deletes
    (ht : IsOpen d t) (hw : Sound d t r w) (h : Deletes n w v) :
    (IsLegal n → v.files.at? (fileOf (home d) n) = none) ∧
      (v.files = w.files ∨ v.files = w.files.erase (fileOf (home d) n)) := by
  rcases h with ⟨hhas, rfl⟩ | ⟨files, hremove, rfl⟩
  · refine ⟨?_, Or.inl rfl⟩
    intro hlegal
    rw [(hw.isHome ht).has_pathOf hlegal] at hhas
    simpa using hhas
  · obtain ⟨q, content, stamp, hlocate, -, rfl⟩ := FileTree.remove_inv hremove
    rw [hw.place_of_locate ht hlocate]
    exact ⟨fun _ => FileTree.at?_erase_self _ (Library.fileOf_ne_nil (home d) n), Or.inr rfl⟩

theorem exists_saves_of_success
    (hname : args.get "name" = .text n)
    (hsuccess : ((Step.call "sclang_save_arrangement" args).run s).2.IsSuccess) :
    ∃ u a, Asked n (tick s.workspace) u a ∧
      Saves a u ((Step.call "sclang_save_arrangement" args).run s).1.workspace := by
  have hruns : Action.Runs _ (toolAction "sclang_save_arrangement" args) (tick s.workspace) _ :=
    Tool.saveArrangement_runs
  obtain ⟨m, u, a, hm, hasked, hsaves⟩ := hruns.answers _ (ok_of_isSuccess hsuccess)
  rw [hname] at hm
  obtain rfl := Except.ok.inj hm
  rw [workspace_of_call]
  exact ⟨u, a, hasked, hsaves⟩

theorem deletes_of_success
    (hname : args.get "name" = .text n)
    (hsuccess : ((Step.call "sclang_delete_arrangement" args).run s).2.IsSuccess) :
    Deletes n (tick s.workspace) ((Step.call "sclang_delete_arrangement" args).run s).1.workspace := by
  have hruns : Action.Runs _ (toolAction "sclang_delete_arrangement" args) (tick s.workspace) _ :=
    Tool.deleteArrangement_runs
  obtain ⟨m, hm, hdeletes⟩ := hruns.answers _ (ok_of_isSuccess hsuccess)
  rw [hname] at hm
  obtain rfl := Except.ok.inj hm
  rw [workspace_of_call]
  exact hdeletes

theorem IsFiled.unique {files : FileTree} (ha : IsFiled d files n a) (hb : IsFiled d files n b) :
    a = b := by
  obtain ⟨content, stamp, hfile, hholds⟩ := ha.filed
  obtain ⟨other, time, hother, hholds'⟩ := hb.filed
  obtain ⟨rfl, -⟩ : content = other ∧ stamp = time := by simpa [hfile] using hother
  exact hholds.unique hholds'

/-- A save writes the file of the name, or the arrangement has just been read from there. -/
theorem isFiled_of_saves
    (ht : IsOpen d t) (hw : Sound d t anyRule w) (hasked : Asked n w u a) (hsaves : Saves a u v) :
    IsFiled d v.files n a := by
  obtain ⟨hu, -, hfound⟩ := hw.asked ht isKept_anyRule hasked
  obtain ⟨saved, hsaved, hlegal, hfiles⟩ := hu.files_of_saves ht hsaves
  rw [hfiles]
  by_cases hsame : fileName n = fileName saved
  · exact isFiled_savedFiles ((Library.isLegal_congr hsame).2 hlegal) hsame
  · apply (isFiled_savedFiles_of_ne hsame).2
    rw [hasked.files_eq]
    rcases hfound with hname | hfiled
    · rw [hsaved] at hname
      exact absurd (congrArg fileName (Label.text.inj hname).symm) hsame
    · exact hfiled

/-! ## What is recalled -/

/-- The step saves or deletes an arrangement. -/
def ChangesStore (s : State) (step : Step) : Prop :=
  ∃ tool ∈ Tool.storeTools, ∃ args, step = .call tool args ∧ (step.run s).2.IsSuccess

theorem file?_fileOf_of_step
    {step : Step} (hinside : step.isInside) (hstep : ¬ChangesStore s step) (place : Place)
    (n : String) :
    (step.run s).1.workspace.files.file? (fileOf place n) =
      s.workspace.files.file? (fileOf place n) := by
  cases step with
  | call tool args =>
      rw [workspace_of_call]
      refine Tool.file?_fileOf_of_call ?_ place n
      intro htool
      cases hresult : (toolAction tool args (tick s.workspace)).2.result with
      | error e => exact ⟨e, rfl⟩
      | ok reply =>
          obtain ⟨fields, hreply⟩ := Tool.success_of_store_call htool hresult
          exact absurd ⟨tool, htool, args, rfl, fields, (value_of_ok hresult).trans hreply⟩ hstep
  | restart => rfl
  | place path text => simp [Step.isInside] at hinside
  | reveal path => rfl
  | listFiles => rfl
  | describeLibrary =>
      rw [workspace_of_describe]
      rfl

theorem isFiled_iff_file?
    {files : FileTree} : IsFiled d files n a ↔ IsLegal n ∧ ∃ content stamp,
      files.file? (fileOf (home d) n) = some (content, stamp) ∧ Holds content a := by
  constructor
  · rintro ⟨hlegal, content, stamp, hfile, hholds⟩
    exact ⟨hlegal, content, stamp, FileTree.file?_of_at? hfile, hholds⟩
  · rintro ⟨hlegal, content, stamp, hfile, hholds⟩
    exact ⟨hlegal, content, stamp, FileTree.at?_of_file? hfile, hholds⟩

/-- What is recalled of the name in a session is what was saved last. -/
structure RecallsSaves (s : State) (n : String) : Prop where
  saved : ∀ (before : List Step) (args : Arguments), (∀ step ∈ before, step.isInside) →
    args.get "name" = .text n →
    let save := (Step.call "sclang_save_arrangement" args).run (run s before).1
    save.2.IsSuccess → ∀ a, Recalled save.1 n a ↔ Shows (run s before).1 n a
  deleted : ∀ (before : List Step) (args : Arguments), (∀ step ∈ before, step.isInside) →
    args.get "name" = .text n →
    let delete := (Step.call "sclang_delete_arrangement" args).run (run s before).1
    delete.2.IsSuccess → ∀ a, ¬Recalled delete.1 n a
  others : ∀ (before : List Step) (step : Step), (∀ step ∈ before, step.isInside) →
    step.isInside → ¬ChangesStore (run s before).1 step →
      ∀ a, Recalled (step.run (run s before).1).1 n a ↔ Recalled (run s before).1 n a

theorem recallsSaves (ht : IsOpen d t) (n : String) : RecallsSaves (opened d t) n where
  saved := by
    intro before args hbefore hname save hsuccess b
    have hs := sound_run ht hbefore
    obtain ⟨u, a, hasked, hsaves⟩ := exists_saves_of_success hname hsuccess
    have hnext : Sound d t anyRule save.1.workspace := hs.step ht isKept_anyRule rfl
    have hfiled := isFiled_of_saves ht hs.tick hasked hsaves
    have hshows := shows_iff_asked.2 ⟨u, hasked⟩
    rw [hnext.recalled_iff ht]
    constructor
    · intro hb
      rwa [← hfiled.unique hb]
    · intro hb
      rwa [← hshows.unique hb]
  deleted := by
    intro before args hbefore hname delete hsuccess a
    have hs := sound_run ht hbefore
    have hnext : Sound d t anyRule delete.1.workspace := hs.step ht isKept_anyRule rfl
    have hdeletes := deletes_of_success hname hsuccess
    rw [hnext.recalled_iff ht]
    rintro ⟨hlegal, content, stamp, hfile, -⟩
    rw [(hs.tick.files_of_deletes ht hdeletes).1 hlegal] at hfile
    simp at hfile
  others := by
    intro before step hbefore hinside hstep a
    have hs := sound_run ht hbefore
    have hnext := hs.step ht isKept_anyRule hinside
    rw [hnext.recalled_iff ht, hs.recalled_iff ht, isFiled_iff_file?, isFiled_iff_file?,
      file?_fileOf_of_step hinside hstep]

end Session

end Arranger
