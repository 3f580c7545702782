import Arranger.Proofs.Files.Growth
import Arranger.Proofs.Library.Simulation
import Arranger.Proofs.Workspace.Calls

/-!
# Arrangements that outlive their session

Whatever an arrangement holds and whatever it is called, it is found again without working copies
once it was saved, or once its exported text stands in the file of its name.
-/

namespace Arranger

open Library (Asked Effect Saves pathOf)

variable {w v : Workspace} {a : Arrangement} {name : String}

namespace Library

theorem get?_of_asked (h : Asked name w v a) : get? name w = (v, .value (some a)) := by
  cases h with
  | held hheld => exact get?_of_held hheld
  | loaded hheld hread hdocument =>
      rw [get?_of_read hheld hread, hdocument]

/-- Without its working copies the workspace answers the name of the arrangement with it, and shows
its document: the schema, the name, the clips and the tracks. -/
structure Recalls (w : Workspace) (name : String) (a : Arrangement) : Prop where
  named : a.name = .text name
  found : (get? name (Session.forgetCopies w)).2 = .value (some a)
  shown : (Tool.getArrangement ⟨[(.text "name", .text name)]⟩ (Session.forgetCopies w)).2 =
    .value (Reply.success [("arrangement", a.datum)])

theorem recalls_of_asked
    (hname : a.name = .text name) (h : Asked name (Session.forgetCopies w) v a) :
    Recalls w name a where
  named := hname
  found := by rw [get?_of_asked h]
  shown := by rw [Tool.getArrangement_of_asked h]

/-- The text of an arrangement in the file of its name brings it back. -/
theorem recalls_of_write
    {files : FileTree} {stamp : Nat} (hname : a.name = .text name)
    (h : w.files.write (pathOf w name) (.text (Yaml.write a.datum)) stamp = .ok files) :
    Recalls { w with files } name a := by
  have hread := FileTree.read_of_write h
  exact recalls_of_asked hname (.loaded rfl hread (fromDocument_write a _))

theorem recalls_of_saves (h : Saves a w v) : ∃ name, Recalls v name a := by
  obtain ⟨name, made, files, hname, -, hwrite, rfl⟩ := h
  have hkept := recalls_of_write (w := { w with files := made }) hname hwrite
  exact ⟨name, hname, hkept.found, hkept.shown⟩

/-- A save that succeeds keeps the arrangement for good, and so does every text that an export
answers, once it stands in the file of the name. -/
theorem recalls_of_save_or_export (w : Workspace) :
    (∀ a p, (save a w).2.result = .ok p → ∃ name, Recalls (save a w).1 name a) ∧
    ∀ args reply, (Tool.exportYaml args w).2.result = .ok reply →
      ∃ asked a text, Arguments.nameOf (args.get "arrangement") = .ok asked ∧
        (require asked w).2 = .value a ∧ reply = Reply.success [("yaml", .text text)] ∧
        ∀ (v : Workspace) (files : FileTree) (stamp : Nat) (name : String), a.name = .text name →
          v.files.write (pathOf v name) (.text text) stamp = .ok files →
          Recalls { v with files } name a := by
  constructor
  · intro a p hsave
    have hruns : Action.Runs (fun _ => True) (save a) w fun _ v => Saves a w v :=
      save_runs trivial fun _ _ => trivial
    exact recalls_of_saves (hruns.answers p hsave)
  · intro args reply hexport
    have hruns : Action.Runs (Effect none w) (Tool.exportYaml args) w fun reply v =>
        Tool.Exports args w v reply := Tool.exportYaml_runs
    obtain ⟨asked, a, hgiven, hasked, rfl⟩ := hruns.answers reply hexport
    refine ⟨asked, a, Yaml.write a.datum, hgiven, ?_, rfl, ?_⟩
    · rw [require_of_asked hasked]
    · intro v files stamp name hname hwrite
      exact recalls_of_write hname hwrite

/-! ## A sample session -/

theorem x_ne_empty : "x" ≠ "" := by decide

theorem sine_ne_empty : "sine" ≠ "" := by decide

def sampleName : String := "a b/c"

/-- An arrangement with a name that is no file name, clips of one name, an instrument with a rest
and an empty group but too few durations, and numbers that are not finite. -/
def sampleArrangement : Arrangement where
  name := sampleName
  clips := [
    .instrument ⟨⟨"x", x_ne_empty⟩, ⟨"sine", sine_ne_empty⟩, [none, some [], some [60, 64]],
      [0.5, 0.0 / 0.0]⟩,
    .file ⟨⟨"x", x_ne_empty⟩, ⟨"~: 'no'", by decide⟩⟩, .empty ⟨⟨"gap\n", by decide⟩, 1.0 / 0.0⟩]
  tracks := [⟨⟨"x", x_ne_empty⟩, ["x", "", "x"]⟩, ⟨⟨"x", x_ne_empty⟩, []⟩]

def sampleWorkspace : Workspace := (Session.start "d").workspace.hold sampleArrangement

def sampleExport : Arguments := ⟨[(.text "arrangement", .text sampleName)]⟩

/-- A workspace with an empty directory of arrangements. -/
def preparedWorkspace : Workspace :=
  { (Session.start "e").workspace with
    files := (Session.start "e").workspace.files.put ["e", "arrangements"] .directory }

theorem asked_sampleArrangement :
    Asked sampleName sampleWorkspace sampleWorkspace sampleArrangement :=
  .held (Workspace.workingCopy?_hold _ _)

theorem recalls_sampleArrangement :
    (∃ p, (save sampleArrangement sampleWorkspace).2.result = .ok p) ∧
      Recalls (save sampleArrangement sampleWorkspace).1 sampleName sampleArrangement ∧
      ∃ text files, (Tool.exportYaml sampleExport sampleWorkspace).2.result =
          .ok (Reply.success [("yaml", .text text)]) ∧
        preparedWorkspace.files.write (pathOf preparedWorkspace sampleName) (.text text) 7 =
          .ok files ∧
        Recalls { preparedWorkspace with files } sampleName sampleArrangement := by
  obtain ⟨hsaved, hexported⟩ := recalls_of_save_or_export sampleWorkspace
  have hhome : IsHome sampleWorkspace ["d", "arrangements"] :=
    ⟨isFresh_start.home.located, isFresh_start.home.isFree⟩
  have hsave := save_eq hhome (a := sampleArrangement) rfl (by decide +kernel) (by decide +kernel)
  have hresult := congrArg (·.2.result) hsave
  have hname : Arguments.nameOf (sampleExport.get "arrangement") = .ok sampleName := by
    simp [sampleExport, Arguments.get, Arguments.nameOf]
  have hanswer : (Tool.exportYaml sampleExport sampleWorkspace).2.result =
      .ok (Reply.success [("yaml", .text (Yaml.write sampleArrangement.datum))]) := by
    unfold Tool.exportYaml Arguments.name
    rw [hname, Action.bind_of_value (Action.ofExcept_ok _),
      Action.bind_of_value (require_of_asked asked_sampleArrangement)]
    rfl
  obtain ⟨name, a, text, hasked, hfound, hreply, hkept⟩ := hexported _ _ hanswer
  obtain rfl : sampleName = name := by
    rw [hname] at hasked
    exact Except.ok.inj hasked
  obtain rfl : sampleArrangement = a := by
    rw [require_of_asked asked_sampleArrangement] at hfound
    simpa [Outcome.value] using hfound
  have hlocate : preparedWorkspace.files.locate (pathOf preparedWorkspace sampleName) =
      .ok (fileOf ["e", "arrangements"] sampleName) := by
    decide +kernel
  have hwrite := FileTree.write_of_located hlocate (by decide +kernel) (.text text) 7
  rw [hreply] at hanswer
  obtain ⟨saved, hrecalls⟩ := hsaved _ _ hresult
  obtain rfl : sampleName = saved := Label.text.inj hrecalls.named
  exact ⟨⟨_, hresult⟩, hrecalls, text, _, hanswer, hwrite, hkept _ _ _ _ rfl hwrite⟩

end Library

end Arranger
