import Arranger.Proofs.Keyed
import Arranger.Workspace.Basic

/-!
# Running actions

An action that begins with a sound step goes on in the workspace that the step leaves; a fault ends
it there.
-/

namespace Arranger

namespace Action

variable {α β : Type} {w v : Workspace}

theorem bind_of_value
    {x : Action α} {a : α} (hx : x w = (v, .value a)) (f : α → Action β) :
    (x >>= f) w = f a v := by
  change andThen x f w = f a v
  simp [andThen, hx, Outcome.value]

theorem bind_of_fail
    {x : Action α} {e : Fault} (hx : x w = (v, .fail e)) (f : α → Action β) :
    (x >>= f) w = (v, .fail e) := by
  change andThen x f w = (v, .fail e)
  simp [andThen, hx, Outcome.fail]

theorem result_bind_eq_ok_iff {x : Action α} {f : α → Action β} {b : β} :
    ((x >>= f) w).2.result = .ok b ↔
      ∃ a, (x w).2.result = .ok a ∧ (f a (x w).1).2.result = .ok b := by
  change (andThen x f w).2.result = .ok b ↔ _
  unfold andThen
  rcases x w with ⟨v, warnings, result⟩
  cases result <;> simp

theorem map_of_value
    {x : Action α} {a : α} (hx : x w = (v, .value a)) (f : α → β) :
    (f <$> x) w = (v, .value (f a)) :=
  bind_of_value hx _

theorem map_of_fail
    {x : Action α} {e : Fault} (hx : x w = (v, .fail e)) (f : α → β) :
    (f <$> x) w = (v, .fail e) :=
  bind_of_fail hx _

@[simp]
theorem pure_apply (a : α) : (pure a : Action α) w = (w, .value a) := rfl

@[simp]
theorem current_apply : current w = (w, .value w) := rfl

@[simp]
theorem change_apply (f : Workspace → Workspace) : change f w = (f w, .value ()) := rfl

@[simp]
theorem fail_apply (e : Fault) : (fail e : Action α) w = (w, .fail e) := rfl

@[simp]
theorem ofExcept_ok (a : α) : (ofExcept (.ok a)) w = (w, .value a) := rfl

@[simp]
theorem ofExcept_error (e : Fault) : (ofExcept (.error e) : Action α) w = (w, .fail e) := rfl

theorem changeFiles_of_ok
    {f : FileTree → Except FileError FileTree} {files : FileTree} (hf : f w.files = .ok files) :
    changeFiles f w = ({ w with files }, .value ()) := by
  simp [changeFiles, hf]

theorem changeFiles_of_error
    {f : FileTree → Except FileError FileTree} {e : FileError} (hf : f w.files = .error e) :
    changeFiles f w = (w, .fail (.file e)) := by
  simp [changeFiles, hf]

theorem inspectFiles_of_ok
    {f : FileTree → Except FileError α} {a : α} (hf : f w.files = .ok a) :
    inspectFiles f w = (w, .value a) := by
  simp [inspectFiles, hf, Except.mapError, Outcome.of, Outcome.value]

theorem inspectFiles_of_error
    {f : FileTree → Except FileError α} {e : FileError} (hf : f w.files = .error e) :
    inspectFiles f w = (w, .fail (.file e)) := by
  simp [inspectFiles, hf, Except.mapError, Outcome.of, Outcome.fail]

end Action

/-! ## Working copies -/

namespace Workspace

@[simp]
theorem hold_files (w : Workspace) (a : Arrangement) : (w.hold a).files = w.files := rfl

@[simp]
theorem hold_arrangements (w : Workspace) (a : Arrangement) :
    (w.hold a).arrangements = w.arrangements := rfl

@[simp]
theorem hold_stamp (w : Workspace) (a : Arrangement) : (w.hold a).stamp = w.stamp := rfl

@[simp]
theorem dropCopy_files (w : Workspace) (name : Label) : (w.dropCopy name).files = w.files := rfl

@[simp]
theorem dropCopy_arrangements (w : Workspace) (name : Label) :
    (w.dropCopy name).arrangements = w.arrangements := rfl

theorem workingCopy?_dropCopy (w : Workspace) (name other : Label) :
    (w.dropCopy name).workingCopy? other =
      if other = name then none else w.workingCopy? other :=
  Keyed.lookup_filter w.working name other

theorem workingCopy?_hold_eq (w : Workspace) (a : Arrangement) (other : Label) :
    (w.hold a).workingCopy? other = if other = a.name then some a else w.workingCopy? other := by
  by_cases hother : other = a.name
  · simp [workingCopy?, hold, hother]
  · have hdrop := w.workingCopy?_dropCopy a.name other
    rw [if_neg hother] at hdrop ⊢
    rw [← hdrop]
    simp [workingCopy?, hold, List.lookup_cons, beq_eq_false_iff_ne.2 hother]

/-- Every working copy is kept under the name of its arrangement. -/
def IsKeyed (w : Workspace) : Prop :=
  ∀ name a, w.workingCopy? name = some a → a.name = name

theorem IsKeyed.hold {w : Workspace} (hw : w.IsKeyed) (a : Arrangement) : (w.hold a).IsKeyed := by
  intro name b hb
  rw [workingCopy?_hold_eq] at hb
  split at hb
  · next hname =>
    rw [← Option.some.inj hb, hname]
  · exact hw name b hb

theorem IsKeyed.dropCopy {w : Workspace} (hw : w.IsKeyed) (name : Label) :
    (w.dropCopy name).IsKeyed := by
  intro other b hb
  rw [workingCopy?_dropCopy] at hb
  split at hb
  · simp at hb
  · exact hw other b hb

end Workspace

end Arranger
