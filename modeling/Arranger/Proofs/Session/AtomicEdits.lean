import Arranger.Proofs.Session.Tidy
import Arranger.Proofs.Workspace.LocalEdits

/-!
# Edits are made whole or not at all

A call that edits a working copy finds it before it changes anything, and what it then makes of the
arrangement replaces the working copy in one step.  A call that fails has therefore changed nothing,
and one that succeeds has changed what it names.  Working copies stand under their own names at all
times, so that no other one is replaced.
-/

namespace Arranger

open Library (Asked Effect)

variable {w v : Workspace} {a : Arrangement} {n : String}

/-! ## Names of working copies -/

theorem Library.Asked.isKeyed (h : Asked n w v a) (hw : w.IsKeyed) : v.IsKeyed := by
  cases h with
  | held hheld => exact hw
  | loaded hheld hread hdocument => exact hw.hold a

theorem Library.Effect.isKeyed {target : Option Label} (h : Effect target w v) (hw : w.IsKeyed) :
    v.IsKeyed := by
  cases h with
  | unchanged => exact hw
  | asked hasked => exact hasked.isKeyed hw
  | created htarget => exact hw.hold _
  | duplicated hasked htarget => exact (hasked.isKeyed hw).hold _
  | edited hasked htarget hedited => exact (hasked.isKeyed hw).hold _
  | prepared hasked hrooted hmake => exact hasked.isKeyed hw
  | saved hasked hmake hsaved hwrite => exact (hasked.isKeyed hw).hold _
  | exported hasked hrooted hmake houtput hwrite => exact hasked.isKeyed hw
  | dropped htarget => exact hw.dropCopy _
  | deleted htarget hremove => exact hw.dropCopy _

namespace Session

theorem isKeyed_step {s : State} (h : s.workspace.IsKeyed) (step : Step) :
    (step.run s).1.workspace.IsKeyed := by
  have htick : (tick s.workspace).IsKeyed := h
  rcases step.effect_or_files s with heffect | hforget | ⟨files, hfiles⟩
  · exact heffect.isKeyed htick
  · rw [hforget]
    intro name a hheld
    rw [workingCopy?_forgetCopies] at hheld
    cases hheld
  · rw [hfiles]
    exact htick

theorem isKeyed_run {s : State} (h : s.workspace.IsKeyed) (steps : List Step) :
    (run s steps).1.workspace.IsKeyed :=
  run_induction (P := fun s => s.workspace.IsKeyed) h fun _ hkeyed => isKeyed_step hkeyed _

theorem isKeyed_of_working_eq_nil (h : w.working = []) : w.IsKeyed := by
  intro name a hheld
  rw [Workspace.workingCopy?, h] at hheld
  cases hheld

/-! ## Edits of working copies -/

variable {args : Arguments} {f : Arrangement → Except Fault Arrangement}

theorem eq_of_attempts
    (hname : Arguments.nameOf (args.get "arrangement") = .ok n)
    (hheld : w.workingCopy? n = some a) (h : Tool.Attempts args w v) : v = w := by
  cases h with
  | unchanged => rfl
  | asked hother hasked =>
      obtain rfl := Except.ok.inj (hname.symm.trans hother)
      cases hasked with
      | held _ => rfl
      | loaded habsent _ _ => simp [hheld] at habsent

theorem exists_hold_of_performs
    (hname : Arguments.nameOf (args.get "arrangement") = .ok n)
    (hheld : w.workingCopy? n = some a) (h : Tool.Performs args f w v) :
    ∃ b, f a = .ok b ∧ v = w.hold b := by
  obtain ⟨m, b, hother, u, found, hasked, hb, rfl⟩ := h
  obtain rfl := Except.ok.inj (hname.symm.trans hother)
  cases hasked with
  | held hfound =>
      obtain rfl := Option.some.inj (hheld.symm.trans hfound)
      exact ⟨b, hb, rfl⟩
  | loaded habsent _ _ => simp [hheld] at habsent

/-- The same files and the same working copies. -/
structure IsUnchanged (w v : Workspace) : Prop where
  files_eq : v.files = w.files
  working_eq : v.working = w.working

/-- The same files, and the same working copies but for the one of a name, which is now another
arrangement. -/
structure IsEdited (n : String) (b : Arrangement) (w v : Workspace) : Prop where
  files_eq : v.files = w.files
  workingCopy?_eq : ∀ m, v.workingCopy? m = if m = .text n then some b else w.workingCopy? m

/-- However a session went on since it began without working copies, a call that edits one of them
is answered with an error and has changed nothing; or it succeeds, and this working copy has become
what the edit makes of it, which differs from it in the clip or the track of the call alone. -/
theorem edit_call_atomic
    {start : State} (hstart : start.workspace.working = []) (steps : List Step)
    {tool key : String} {pool : Pool} (htool : (tool, key, pool) ∈ Tool.editTools)
    (hname : args.get "arrangement" = .text n)
    (hheld : (run start steps).1.workspace.workingCopy? n = some a) :
    let s := (run start steps).1
    let next := ((Step.call tool args).run s).1
    let answer := ((Step.call tool args).run s).2
    (∃ fault, answer.value = Reply.error fault) ∧ IsUnchanged s.workspace next.workspace ∨
      answer.IsSuccess ∧ ∃ f b, Tool.editOf? args tool = some f ∧ f a = .ok b ∧
        IsEdited n b s.workspace next.workspace ∧
          ∀ name, args.get key = .text name → a.DiffersIn b name pool := by
  intro s next answer
  have hkeyed : s.workspace.IsKeyed := isKeyed_run (isKeyed_of_working_eq_nil hstart) steps
  have hticked : (tick s.workspace).workingCopy? n = some a := hheld
  have hnameOf : Arguments.nameOf (args.get "arrangement") = .ok n := by rw [hname]; rfl
  obtain ⟨f, hf⟩ := Tool.exists_edit args htool
  have hruns : Tool.RunsEdit args f (toolAction tool args) (tick s.workspace) :=
    Tool.edit_call_runs hf
  have hnext : next.workspace = (toolAction tool args (tick s.workspace)).1 :=
    workspace_of_call s tool args
  cases hresult : (toolAction tool args (tick s.workspace)).2.result with
  | error fault =>
      left
      have hleft := eq_of_attempts hnameOf hticked (hruns.fails fault hresult)
      rw [hnext, hleft]
      exact ⟨⟨fault, value_of_error hresult⟩, rfl, rfl⟩
  | ok reply =>
      right
      obtain ⟨hperforms, fields, hreply⟩ := hruns.answers reply hresult
      obtain ⟨b, hb, hleft⟩ := exists_hold_of_performs hnameOf hticked hperforms
      have hsame : b.name = .text n := (Tool.edited_of_editOf? hf hb).name_eq.trans (hkeyed n a hheld)
      rw [hnext, hleft]
      refine ⟨⟨fields, (value_of_ok hresult).trans hreply⟩, f, b, hf, hb, ⟨rfl, ?_⟩, ?_⟩
      · intro m
        rw [Workspace.workingCopy?_hold_eq, hsame]
        rfl
      · intro name hkey
        exact Tool.differsIn_of_editOf? htool hf hkey hb

/-- A clip is removed that a track refers to. -/
def sampleRemoval : Arguments :=
  ⟨[(.text "arrangement", .text "a b"), (.text "name", .text "y")]⟩

theorem edit_call_atomic_sampleRemoval :
    ∃ a b, sampleState.workspace.workingCopy? "a b" = some a ∧
      ((Step.call "sclang_remove_clip" sampleRemoval).run sampleState).1.workspace.workingCopy?
        "a b" = some b ∧ a.DiffersIn b "y" .clips := by
  have hsome : (sampleState.workspace.workingCopy? "a b").isSome = true := by decide +kernel
  obtain ⟨a, ha⟩ := Option.isSome_iff_exists.1 hsome
  have hstart : (start "d").workspace.working = [] := rfl
  have htool : ("sclang_remove_clip", "name", Pool.clips) ∈ Tool.editTools := by
    simp [Tool.editTools]
  have hname : sampleRemoval.get "arrangement" = .text "a b" := rfl
  have hkey : sampleRemoval.get "name" = .text "y" := rfl
  have hstatus : (((Step.call "sclang_remove_clip" sampleRemoval).run
      sampleState).2.value.fields.toOption.bind fun fields => fields.head?.map fun field =>
        field.2.bareText) = some "success" := by decide +kernel
  rcases edit_call_atomic hstart sampleSteps htool hname ha with
    ⟨⟨fault, hfault⟩, -⟩ | ⟨-, f, b, -, -, hedited, hdiffers⟩
  · have herror : some "error" = some "success" := by
      rw [← hstatus]
      exact congrArg (fun d : Datum => d.fields.toOption.bind fun fields => fields.head?.map
        fun field => field.2.bareText) hfault.symm
    simp at herror
  · exact ⟨a, b, ha, (hedited.workingCopy?_eq "a b").trans (if_pos rfl), hdiffers "y" hkey⟩

end Session

end Arranger
