import Arranger.Proofs.Workspace.Action

/-!
# What actions leave behind

An action answers or fails, and leaves a workspace either way.  What is left is told for each of
both, and what one part of an action tells of its answer may be used for the parts after it.
-/

namespace Arranger.Action

variable {α β : Type} {E : Workspace → Prop} {w : Workspace}

/-- Run in `w`, an action that fails leaves `E`, and one that answers leaves `Q` of its answer. -/
structure Runs (E : Workspace → Prop) (x : Action α) (w : Workspace)
    (Q : α → Workspace → Prop) : Prop where
  fails : ∀ e, (x w).2.result = .error e → E (x w).1
  answers : ∀ a, (x w).2.result = .ok a → Q a (x w).1

theorem Runs.mono
    {x : Action α} {Q R : α → Workspace → Prop} (hx : Runs E x w Q)
    (hQR : ∀ a v, Q a v → R a v) : Runs E x w R :=
  ⟨hx.fails, fun a ha => hQR a _ (hx.answers a ha)⟩

theorem Runs.weaken
    {F : Workspace → Prop} {x : Action α} {Q : α → Workspace → Prop} (hx : Runs E x w Q)
    (hEF : ∀ v, E v → F v) : Runs F x w Q :=
  ⟨fun e he => hEF _ (hx.fails e he), hx.answers⟩

theorem Runs.leaves {x : Action α} (hx : Runs E x w fun _ v => E v) : E (x w).1 := by
  cases hresult : (x w).2.result with
  | error e => exact hx.fails e hresult
  | ok a => exact hx.answers a hresult

theorem runs_pure {a : α} {Q : α → Workspace → Prop} (ha : Q a w) : Runs E (pure a) w Q := by
  constructor
  · intro e he
    simp [Outcome.value] at he
  · intro b hb
    rw [← Except.ok.inj hb]
    exact ha

theorem runs_fail {e : Fault} {Q : α → Workspace → Prop} (hw : E w) : Runs E (fail e) w Q := by
  constructor
  · intro _ _
    exact hw
  · intro b hb
    simp [Outcome.fail] at hb

theorem Runs.bind
    {x : Action α} {f : α → Action β} {Q : α → Workspace → Prop} {R : β → Workspace → Prop}
    (hx : Runs E x w Q) (hf : ∀ a v, Q a v → Runs E (f a) v R) : Runs E (x >>= f) w R := by
  obtain ⟨hfails, hanswers⟩ := hx
  rcases hrun : x w with ⟨v, warnings, result⟩
  rw [hrun] at hfails hanswers
  cases result with
  | error e =>
      have hbind : (x >>= f) w = (v, ⟨warnings, .error e⟩) := by
        change andThen x f w = _
        simp [andThen, hrun]
      constructor
      · intro _ _
        rw [hbind]
        exact hfails e rfl
      · intro b hb
        rw [hbind] at hb
        simp at hb
  | ok a =>
      have hbind : (x >>= f) w =
          ((f a v).1, ⟨warnings ++ (f a v).2.warnings, (f a v).2.result⟩) := by
        change andThen x f w = _
        simp [andThen, hrun]
      have hnext := hf a v (hanswers a rfl)
      constructor
      · intro e he
        rw [hbind] at he ⊢
        exact hnext.fails e he
      · intro b hb
        rw [hbind] at hb ⊢
        exact hnext.answers b hb

/-! ## Parts that leave the workspace as it is -/

theorem runs_current {Q : Workspace → Workspace → Prop} (hw : Q w w) : Runs E current w Q := by
  constructor
  · intro e he
    simp [Outcome.value] at he
  · intro v hv
    rw [← Except.ok.inj hv]
    exact hw

theorem runs_ofOutcome
    {x : Outcome α} (hw : E w) :
    Runs E (ofOutcome x) w fun a v => w = v ∧ x.result = .ok a :=
  ⟨fun _ _ => hw, fun _ ha => ⟨rfl, ha⟩⟩

theorem runs_ofExcept
    {x : Except Fault α} (hw : E w) : Runs E (ofExcept x) w fun a v => w = v ∧ x = .ok a :=
  runs_ofOutcome hw

/-- An outcome that may fail needs `E` only if it does. -/
theorem runs_ofExcept_of_error
    {x : Except Fault α} (hw : ∀ e, x = .error e → E w) :
    Runs E (ofExcept x) w fun a v => w = v ∧ x = .ok a :=
  ⟨fun e he => hw e he, fun _ ha => ⟨rfl, ha⟩⟩

theorem runs_inspectFiles
    {f : FileTree → Except FileError α} (hw : E w) :
    Runs E (inspectFiles f) w fun a v => w = v ∧ f w.files = .ok a := by
  constructor
  · intro _ _
    exact hw
  · intro a ha
    cases hf : f w.files with
    | error e =>
        rw [inspectFiles_of_error hf] at ha
        simp [Outcome.fail] at ha
    | ok b =>
        rw [inspectFiles_of_ok hf] at ha ⊢
        exact ⟨rfl, by simpa [Outcome.value] using ha⟩

/-! ## Parts that change the workspace -/

theorem runs_change
    {f : Workspace → Workspace} {Q : Unit → Workspace → Prop} (hw : Q () (f w)) :
    Runs E (change f) w Q := by
  constructor
  · intro e he
    simp [Outcome.value] at he
  · intro _ _
    exact hw

theorem runs_changeFiles
    {f : FileTree → Except FileError FileTree} (hw : E w) :
    Runs E (changeFiles f) w fun _ v => ∃ files, f w.files = .ok files ∧ { w with files } = v := by
  cases hrun : f w.files with
  | error e =>
      constructor
      · intro _ _
        rw [changeFiles_of_error hrun]
        exact hw
      · intro a ha
        rw [changeFiles_of_error hrun] at ha
        simp [Outcome.fail] at ha
  | ok files =>
      constructor
      · intro e he
        rw [changeFiles_of_ok hrun] at he
        simp [Outcome.value] at he
      · intro a ha
        rw [changeFiles_of_ok hrun]
        exact ⟨files, rfl, rfl⟩

theorem runs_writeFile
    {p : Path} {content : Content} (hw : E w) :
    Runs E (writeFile p content) w fun _ v =>
      ∃ files, w.files.write p content w.stamp = .ok files ∧ { w with files } = v := by
  have hwrite : Runs E (changeFiles (·.write p content w.stamp)) w _ := runs_changeFiles hw
  exact ⟨hwrite.fails, hwrite.answers⟩

end Arranger.Action
