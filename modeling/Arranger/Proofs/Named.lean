import Arranger.Named
import Mathlib.Data.List.Basic
import Mathlib.Logic.Function.Basic

/-!
# Lists by name

Putting, removing and changing elements keeps the names in a list apart, and elements of other names
do not matter to finding one.
-/

namespace Arranger.Named

variable {α : Type} {nameOf : α → String} {name : String} {x y : α} {xs ys : List α}

/-! ## Changes -/

theorem map_put (nameOf : α → String) (x : α) (xs : List α) :
    (put nameOf x xs).map nameOf =
      if nameOf x ∈ xs.map nameOf then xs.map nameOf else xs.map nameOf ++ [nameOf x] := by
  induction xs with
  | nil => simp [put]
  | cons z rest ih =>
      unfold put
      split
      · next heq => simp [heq]
      · next hne =>
        rw [List.map_cons, ih, List.map_cons]
        simp only [List.mem_cons, Ne.symm hne, false_or]
        split <;> rfl

theorem nodup_map_put (h : (xs.map nameOf).Nodup) : ((put nameOf x xs).map nameOf).Nodup := by
  rw [map_put]
  split
  · exact h
  · next hnew => exact List.nodup_append.2 ⟨h, List.pairwise_singleton _ _, by simpa using hnew⟩

theorem mem_of_mem_put (h : y ∈ put nameOf x xs) : y = x ∨ y ∈ xs := by
  induction xs with
  | nil => exact Or.inl (by simpa [put] using h)
  | cons z rest ih =>
      unfold put at h
      split at h
      · rcases List.mem_cons.1 h with heq | hmem
        · exact Or.inl heq
        · exact Or.inr (List.mem_cons_of_mem z hmem)
      · rcases List.mem_cons.1 h with rfl | hmem
        · exact Or.inr List.mem_cons_self
        · exact (ih hmem).imp_right (List.mem_cons_of_mem z)

/-- Removing takes one element away and leaves the others in their order. -/
theorem sublist_of_remove? (h : remove? nameOf name xs = some ys) : ys.Sublist xs := by
  induction xs generalizing ys with
  | nil => simp [remove?] at h
  | cons z rest ih =>
      unfold remove? at h
      split at h
      · rw [← Option.some.inj h]
        exact List.sublist_cons_self z rest
      · obtain ⟨zs, hzs, rfl⟩ := Option.map_eq_some_iff.1 h
        exact (ih hzs).cons_cons z

theorem map_of_remove? (h : remove? nameOf name xs = some ys) :
    ys.map nameOf = (xs.map nameOf).erase name := by
  induction xs generalizing ys with
  | nil => simp [remove?] at h
  | cons z rest ih =>
      unfold remove? at h
      split at h
      · next heq =>
        rw [← Option.some.inj h, List.map_cons, heq, List.erase_cons_head]
      · next hne =>
        obtain ⟨zs, hzs, rfl⟩ := Option.map_eq_some_iff.1 h
        rw [List.map_cons, List.map_cons, ih hzs, List.erase_cons_tail (by simpa using hne)]

theorem remove?_eq_none_iff : remove? nameOf name xs = none ↔ name ∉ xs.map nameOf := by
  induction xs with
  | nil => simp [remove?]
  | cons z rest ih =>
      unfold remove?
      split
      · next heq => simp [heq]
      · next hne => simp [ih, Ne.symm hne]

theorem update?_eq_none_iff {f : α → α} :
    update? nameOf name f xs = none ↔ name ∉ xs.map nameOf := by
  induction xs with
  | nil => simp [update?]
  | cons z rest ih =>
      unfold update?
      split
      · next heq => simp [heq]
      · next hne => simp [ih, Ne.symm hne]

theorem map_of_update? {f : α → α} (hf : ∀ z, nameOf (f z) = nameOf z)
    (h : update? nameOf name f xs = some ys) : ys.map nameOf = xs.map nameOf := by
  induction xs generalizing ys with
  | nil => simp [update?] at h
  | cons z rest ih =>
      unfold update? at h
      split at h
      · rw [← Option.some.inj h, List.map_cons, List.map_cons, hf]
      · obtain ⟨zs, hzs, rfl⟩ := Option.map_eq_some_iff.1 h
        rw [List.map_cons, List.map_cons, ih hzs]

/-! ## One place -/

/-- The second list differs from the first in one place at most, that of a name: the first element
of the name has another one in its place or is gone, or there was none and one stands at the end. -/
inductive Differs (nameOf : α → String) (name : String) : List α → List α → Prop
  | replaced {before after : List α} {x y : α} (hbefore : ∀ z ∈ before, nameOf z ≠ name)
      (hx : nameOf x = name) (hy : nameOf y = name) :
      Differs nameOf name (before ++ x :: after) (before ++ y :: after)
  | added {xs : List α} {y : α} (hxs : ∀ z ∈ xs, nameOf z ≠ name) (hy : nameOf y = name) :
      Differs nameOf name xs (xs ++ [y])
  | removed {before after : List α} {x : α} (hbefore : ∀ z ∈ before, nameOf z ≠ name)
      (hx : nameOf x = name) : Differs nameOf name (before ++ x :: after) (before ++ after)

theorem Differs.cons (h : Differs nameOf name xs ys) (hx : nameOf x ≠ name) :
    Differs nameOf name (x :: xs) (x :: ys) := by
  cases h with
  | replaced hbefore hold hnew =>
      exact .replaced (List.forall_mem_cons.2 ⟨hx, hbefore⟩) hold hnew
  | added hxs hnew => exact .added (List.forall_mem_cons.2 ⟨hx, hxs⟩) hnew
  | removed hbefore hold => exact .removed (List.forall_mem_cons.2 ⟨hx, hbefore⟩) hold

theorem Differs.others_eq (h : Differs nameOf name xs ys) :
    ys.filter (nameOf · ≠ name) = xs.filter (nameOf · ≠ name) := by
  cases h with
  | replaced hbefore hx hy => simp [hx, hy]
  | added hxs hy => simp [hy]
  | removed hbefore hx => simp [hx]

theorem differs_put (x : α) (xs : List α) : Differs nameOf (nameOf x) xs (put nameOf x xs) := by
  induction xs with
  | nil => exact .added (by simp) rfl
  | cons z rest ih =>
      unfold put
      split
      · next heq =>
        exact Differs.replaced (fun y hy => absurd hy List.not_mem_nil) heq rfl
      · next hne => exact ih.cons hne

theorem differs_of_remove? (h : remove? nameOf name xs = some ys) :
    Differs nameOf name xs ys := by
  induction xs generalizing ys with
  | nil => simp [remove?] at h
  | cons z rest ih =>
      unfold remove? at h
      split at h
      · next heq =>
        rw [← Option.some.inj h]
        exact Differs.removed (fun y hy => absurd hy List.not_mem_nil) heq
      · next hne =>
        obtain ⟨zs, hzs, rfl⟩ := Option.map_eq_some_iff.1 h
        exact (ih hzs).cons hne

theorem differs_of_update? {f : α → α} (hf : ∀ z, nameOf (f z) = nameOf z)
    (h : update? nameOf name f xs = some ys) : Differs nameOf name xs ys := by
  induction xs generalizing ys with
  | nil => simp [update?] at h
  | cons z rest ih =>
      unfold update? at h
      split at h
      · next heq =>
        rw [← Option.some.inj h]
        exact Differs.replaced (fun y hy => absurd hy List.not_mem_nil) heq ((hf z).trans heq)
      · next hne =>
        obtain ⟨zs, hzs, rfl⟩ := Option.map_eq_some_iff.1 h
        exact (ih hzs).cons hne

/-! ## Finding -/

variable {before after : List α}

theorem find?_first (h : ∀ y ∈ before, nameOf y ≠ nameOf x) (after : List α) :
    find? nameOf (nameOf x) (before ++ x :: after) = some x := by
  have hbefore : before.find? (nameOf · = nameOf x) = none := by simpa using h
  simp [find?, List.find?_append, hbefore]

/-- Elements of other names are passed. -/
theorem find?_passes (added : List α) (h : ∀ y ∈ added, nameOf y ≠ name) :
    find? nameOf name (before ++ (added ++ after)) = find? nameOf name (before ++ after) := by
  have hadded : added.find? (nameOf · = name) = none := by simpa using h
  simp [find?, List.find?_append, hadded]

theorem find?_eq_none_iff : find? nameOf name xs = none ↔ name ∉ xs.map nameOf := by
  simp [find?]

theorem name_of_find? (h : find? nameOf name xs = some x) : nameOf x = name := by
  simpa using List.find?_some h

theorem Differs.find?_eq {other : String} (h : Differs nameOf name xs ys) (hne : other ≠ name) :
    find? nameOf other ys = find? nameOf other xs := by
  cases h with
  | replaced hbefore hx hy => simp [find?, List.find?_append, hx, hy, hne.symm]
  | added hxs hy => simp [find?, List.find?_append, hy, hne.symm]
  | removed hbefore hx => simp [find?, List.find?_append, hx, hne.symm]

theorem find?_of_remove? (hnodup : (xs.map nameOf).Nodup) (h : remove? nameOf name xs = some ys) :
    find? nameOf name ys = none := by
  rw [find?_eq_none_iff, map_of_remove? h]
  exact hnodup.not_mem_erase

theorem find?_of_update? {f : α → α} (hf : ∀ z, nameOf (f z) = nameOf z)
    (h : update? nameOf name f xs = some ys) :
    find? nameOf name ys = (find? nameOf name xs).map f := by
  induction xs generalizing ys with
  | nil => simp [update?] at h
  | cons z rest ih =>
      unfold update? at h
      split at h
      · next heq =>
        rw [← Option.some.inj h]
        simp [find?, hf, heq]
      · next hne =>
        obtain ⟨zs, hzs, rfl⟩ := Option.map_eq_some_iff.1 h
        simpa [find?, List.find?_cons, hne] using ih hzs

theorem find?_mem_of_nodup
    (hnodup : (xs.map nameOf).Nodup) (hx : x ∈ xs) (h : ∀ y ∈ before, nameOf y ≠ nameOf x) :
    find? nameOf (nameOf x) (before ++ (xs ++ after)) = some x := by
  obtain ⟨front, back, rfl⟩ := List.append_of_mem hx
  have hfront : ∀ y ∈ before ++ front, nameOf y ≠ nameOf x := by
    intro y hy
    rcases List.mem_append.1 hy with hbefore | hin
    · exact h y hbefore
    · rw [List.map_append, List.nodup_append] at hnodup
      exact hnodup.2.2 _ (List.mem_map_of_mem hin) _ (by simp)
  have hfirst := find?_first hfront (back ++ after)
  simpa using hfirst

/-! ## Finding as a function of the name -/

theorem find?_put (x : α) (xs : List α) :
    (find? nameOf · (put nameOf x xs)) =
      Function.update (find? nameOf · xs) (nameOf x) (some x) :=
  Function.eq_update_iff.2
    ⟨find?_put_self nameOf x xs, fun _ hne => find?_put_of_ne hne.symm xs⟩

theorem find?_remove? (hnodup : (xs.map nameOf).Nodup) (h : remove? nameOf name xs = some ys) :
    (find? nameOf · ys) = Function.update (find? nameOf · xs) name none :=
  Function.eq_update_iff.2
    ⟨find?_of_remove? hnodup h, fun _ hne => (differs_of_remove? h).find?_eq hne⟩

theorem find?_update? {f : α → α} (hf : ∀ z, nameOf (f z) = nameOf z)
    (h : update? nameOf name f xs = some ys) :
    (find? nameOf · ys) =
      Function.update (find? nameOf · xs) name ((find? nameOf name xs).map f) :=
  Function.eq_update_iff.2
    ⟨find?_of_update? hf h, fun _ hne => (differs_of_update? hf h).find?_eq hne⟩

end Arranger.Named
