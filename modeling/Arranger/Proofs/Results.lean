import Arranger.Fault
import Mathlib.Data.List.Forall2

/-!
# Results of several steps

A sequence of steps gives a value exactly if each step gives one, and so does a step that is taken
for every element of a list.
-/

namespace Arranger

variable {ε ε' α β : Type}

theorem bind_eq_ok_iff {x : Except ε α} {f : α → Except ε β} {b : β} :
    (x >>= f) = .ok b ↔ ∃ a, x = .ok a ∧ f a = .ok b := by
  cases x <;> simp [bind, Except.bind]

theorem bind_eq_error_iff {x : Except ε α} {f : α → Except ε β} {e : ε} :
    (x >>= f) = .error e ↔ x = .error e ∨ ∃ a, x = .ok a ∧ f a = .error e := by
  cases x <;> simp [bind, Except.bind]

theorem map_eq_ok_iff {x : Except ε α} {f : α → β} {b : β} :
    x.map f = .ok b ↔ ∃ a, x = .ok a ∧ f a = b := by
  cases x <;> simp [Except.map]

theorem mapError_eq_ok_iff {x : Except ε α} {f : ε → ε'} {a : α} :
    x.mapError f = .ok a ↔ x = .ok a := by
  cases x <;> simp [Except.mapError]

theorem mapError_eq_error_iff {x : Except ε α} {f : ε → ε'} {e : ε'} :
    x.mapError f = .error e ↔ ∃ cause, x = .error cause ∧ f cause = e := by
  cases x <;> simp [Except.mapError]

theorem exists_eq_ok_of_isSome {x : Except ε α} (h : x.toOption.isSome = true) :
    ∃ a, x = .ok a := by
  cases x with
  | ok a => exact ⟨a, rfl⟩
  | error e => cases h

theorem mapM_eq_ok_iff {f : α → Except ε β} {xs : List α} {ys : List β} :
    xs.mapM f = .ok ys ↔ List.Forall₂ (fun x y => f x = .ok y) xs ys := by
  induction xs generalizing ys with
  | nil => simp [pure, Except.pure, eq_comm]
  | cons x rest ih =>
      rw [List.mapM_cons, List.forall₂_cons_left_iff]
      simp only [bind_eq_ok_iff, ih, pure, Except.pure, Except.ok.injEq]
      constructor
      · rintro ⟨y, hy, ys', hys', rfl⟩
        exact ⟨y, ys', hy, hys', rfl⟩
      · rintro ⟨y, ys', hy, hys', rfl⟩
        exact ⟨y, hy, ys', hys', rfl⟩

theorem exists_forall₂_iff {r : α → β → Prop} {xs : List α} :
    (∃ ys, List.Forall₂ r xs ys) ↔ ∀ x ∈ xs, ∃ y, r x y := by
  induction xs with
  | nil => simp
  | cons x rest ih =>
      rw [List.forall_mem_cons, ← ih]
      simp only [List.forall₂_cons_left_iff]
      constructor
      · rintro ⟨_, y, ys, hy, hys, rfl⟩
        exact ⟨⟨y, hy⟩, ys, hys⟩
      · rintro ⟨⟨y, hy⟩, ys, hys⟩
        exact ⟨_, y, ys, hy, hys, rfl⟩

/-- What two lists have to do with a third one, they have to do with each other. -/
theorem forall₂_of_common {γ : Type} {r : α → β → Prop} {s : α → γ → Prop} {t : β → γ → Prop}
    {xs : List α} {ys : List β} {zs : List γ} (hys : List.Forall₂ r xs ys)
    (hzs : List.Forall₂ s xs zs) (h : ∀ x y z, r x y → s x z → t y z) : List.Forall₂ t ys zs := by
  induction hys generalizing zs with
  | nil =>
      cases hzs
      exact .nil
  | cons hy _ ih =>
      cases hzs with
      | cons hz hrest => exact .cons (h _ _ _ hy hz) (ih hrest)

theorem mapM_eq_some_of_forall₂ {f : α → Option β} {xs : List α} {ys : List β}
    (h : List.Forall₂ (fun x y => f x = some y) xs ys) : xs.mapM f = some ys := by
  induction h with
  | nil => rfl
  | cons hxy _ ih => simp [List.mapM_cons, hxy, ih]

theorem exists_mapM_iff {f : α → Except ε β} {xs : List α} :
    (∃ ys, xs.mapM f = .ok ys) ↔ ∀ x ∈ xs, ∃ y, f x = .ok y := by
  simp only [mapM_eq_ok_iff, exists_forall₂_iff]

theorem eq_filterMap_of_mapM {f : α → Except ε β} {xs : List α} {ys : List β}
    (h : xs.mapM f = .ok ys) : ys = xs.filterMap fun x => (f x).toOption := by
  have hpairs := mapM_eq_ok_iff.1 h
  clear h
  induction hpairs with
  | nil => rfl
  | cons hxy _ ih => rw [List.filterMap_cons, hxy, Except.toOption, ← ih]

theorem length_eq_of_mapM {f : α → Except ε β} {xs : List α} {ys : List β}
    (h : xs.mapM f = .ok ys) : ys.length = xs.length :=
  (mapM_eq_ok_iff.1 h).length_eq.symm

namespace Outcome

theorem result_andThen_eq_ok_iff {x : Outcome α} {f : α → Outcome β} {b : β} :
    (x.andThen f).result = .ok b ↔ ∃ a, x.result = .ok a ∧ (f a).result = .ok b := by
  rw [result_andThen]
  exact bind_eq_ok_iff

theorem result_andThen_eq_error_iff {x : Outcome α} {f : α → Outcome β} {e : Fault} :
    (x.andThen f).result = .error e ↔
      x.result = .error e ∨ ∃ a, x.result = .ok a ∧ (f a).result = .error e := by
  rw [result_andThen]
  exact bind_eq_error_iff

end Outcome

end Arranger
