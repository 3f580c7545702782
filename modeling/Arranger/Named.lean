/-!
# Lists by name

Clips and tracks are kept in lists in which the first element of a name stands for the name.
-/

namespace Arranger.Named

variable {α : Type}

/-- The first element of a name. -/
def find? (nameOf : α → String) (name : String) (xs : List α) : Option α :=
  xs.find? (nameOf · = name)

/-- Puts an element in the place of the first one of its name, or at the end. -/
def put (nameOf : α → String) (x : α) : List α → List α
  | [] => [x]
  | y :: rest => if nameOf y = nameOf x then x :: rest else y :: put nameOf x rest

/-- The list without the first element of a name; none if there is no such element. -/
def remove? (nameOf : α → String) (name : String) : List α → Option (List α)
  | [] => none
  | y :: rest =>
      if nameOf y = name then some rest else (remove? nameOf name rest).map (y :: ·)

/-- Changes the first element of a name; none if there is no such element. -/
def update? (nameOf : α → String) (name : String) (f : α → α) : List α → Option (List α)
  | [] => none
  | y :: rest =>
      if nameOf y = name then some (f y :: rest) else (update? nameOf name f rest).map (y :: ·)

theorem find?_put_self (nameOf : α → String) (x : α) (xs : List α) :
    find? nameOf (nameOf x) (put nameOf x xs) = some x := by
  induction xs with
  | nil => simp [find?, put]
  | cons y rest ih =>
      unfold put
      split
      · simp [find?]
      · next hne =>
          simp only [find?, List.find?_cons, hne, decide_false] at ih ⊢
          exact ih

theorem find?_put_of_ne {nameOf : α → String} {x : α} {name : String} (h : nameOf x ≠ name)
    (xs : List α) : find? nameOf name (put nameOf x xs) = find? nameOf name xs := by
  induction xs with
  | nil => simp [find?, put, h]
  | cons y rest ih =>
      unfold put
      split
      · next heq => simp [find?, heq, h]
      · simp only [find?, List.find?_cons] at ih ⊢
        rw [ih]

end Arranger.Named
