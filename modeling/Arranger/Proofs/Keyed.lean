import Mathlib.Data.List.Basic

/-!
# Lists of entries by key

Entries are looked up by key and removed by key.
-/

namespace Arranger.Keyed

variable {κ β : Type} [BEq κ] [LawfulBEq κ]

theorem lookup_filter_self (entries : List (κ × β)) (key : κ) :
    (entries.filter (·.1 != key)).lookup key = none := by
  rw [List.lookup_eq_none_iff]
  intro entry hentry
  have hne : entry.1 ≠ key := by simpa using (List.mem_filter.1 hentry).2
  exact bne_iff_ne.2 hne.symm

theorem lookup_filter_of_ne
    (entries : List (κ × β)) {key other : κ} (hne : other ≠ key) :
    (entries.filter (·.1 != key)).lookup other = entries.lookup other := by
  induction entries with
  | nil => rfl
  | cons entry rest ih =>
      obtain ⟨name, x⟩ := entry
      by_cases hname : name = key
      · subst hname
        have hbeq : (other == name) = false := beq_eq_false_iff_ne.2 hne
        simp [List.lookup_cons, hbeq, ih]
      · simp [hname, List.lookup_cons, ih]

theorem lookup_filter [DecidableEq κ] (entries : List (κ × β)) (key other : κ) :
    (entries.filter (·.1 != key)).lookup other =
      if other = key then none else entries.lookup other := by
  split
  · next heq =>
    rw [heq]
    exact lookup_filter_self entries key
  · next hne => exact lookup_filter_of_ne entries hne

end Arranger.Keyed
