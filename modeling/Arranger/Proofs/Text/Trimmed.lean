import Arranger.Text.Blank
import Mathlib.Data.List.DropRight

/-!
# Trimmed texts

Removing the characters of a class from both ends of a text leaves a text with none of them at its
ends.  The order of the ends does not matter, and a word of other characters in front of a text is
left alone.
-/

namespace Arranger.Text

variable {p : Char → Bool} {s u : List Char}

theorem trim_eq (p : Char → Bool) (s : List Char) : trim p s = (s.dropWhile p).rdropWhile p := rfl

theorem length_trim_le (p : Char → Bool) (s : List Char) : (trim p s).length ≤ s.length :=
  (List.rdropWhile_prefix p _).length_le.trans (List.dropWhile_suffix p).length_le

theorem dropWhile_rdropWhile (p : Char → Bool) (s : List Char) :
    (s.rdropWhile p).dropWhile p = (s.dropWhile p).rdropWhile p := by
  induction s using List.reverseRecOn with
  | nil => rfl
  | append_singleton rest c ih =>
      by_cases hc : p c = true
      · rw [List.rdropWhile_concat_pos p rest c hc, ih, List.dropWhile_append]
        split
        · next hempty =>
          rw [List.isEmpty_iff.1 hempty, List.dropWhile_cons_of_pos hc]
          rfl
        · rw [List.rdropWhile_concat_pos p _ c hc]
      · rw [List.rdropWhile_concat_neg p rest c hc, List.dropWhile_append]
        split
        · rw [List.dropWhile_cons_of_neg hc]
          exact (List.rdropWhile_concat_neg p [] c hc).symm
        · rw [List.rdropWhile_concat_neg p _ c hc]

theorem trim_rdropWhile (p : Char → Bool) (s : List Char) : trim p (s.rdropWhile p) = trim p s := by
  rw [trim_eq, dropWhile_rdropWhile, List.rdropWhile_idempotent, trim_eq]

theorem trim_trim (p : Char → Bool) (s : List Char) : trim p (trim p s) = trim p s := by
  have htrim := trim_eq p s
  rw [htrim, trim_rdropWhile, trim_eq, List.dropWhile_idempotent]

theorem strip_strip (s : List Char) : strip (strip s) = strip s := trim_trim isBlank s

theorem rdropWhile_append_of_not (hu : ∀ c ∈ u, p c = false) (s : List Char) :
    (u ++ s).rdropWhile p = u ++ s.rdropWhile p := by
  induction s using List.reverseRecOn with
  | nil =>
      rw [List.rdropWhile_nil, List.append_nil, List.rdropWhile_eq_self_iff]
      intro hne
      rw [hu _ (List.getLast_mem hne)]
      exact Bool.false_ne_true
  | append_singleton rest c ih =>
      rw [← List.append_assoc]
      by_cases hc : p c = true
      · rw [List.rdropWhile_concat_pos p _ c hc, List.rdropWhile_concat_pos p _ c hc, ih]
      · rw [List.rdropWhile_concat_neg p _ c hc, List.rdropWhile_concat_neg p _ c hc,
          List.append_assoc]

/-- A word in front of a text keeps the blanks behind it where they are. -/
theorem trim_append_of_not (hne : u ≠ []) (hu : ∀ c ∈ u, p c = false) (s : List Char) :
    trim p (u ++ s) = u ++ s.rdropWhile p := by
  obtain ⟨c, rest, rfl⟩ := List.exists_cons_of_ne_nil hne
  have hc : ¬p c = true := by
    rw [hu c List.mem_cons_self]
    exact Bool.false_ne_true
  rw [trim_eq, List.cons_append, List.dropWhile_cons_of_neg hc, ← List.cons_append,
    rdropWhile_append_of_not hu]

theorem trim_eq_self (hs : ∀ c ∈ s, p c = false) : trim p s = s := by
  cases s with
  | nil => rfl
  | cons c rest =>
      have htrim := trim_append_of_not (List.cons_ne_nil c rest) hs []
      rwa [List.append_nil, List.rdropWhile_nil, List.append_nil] at htrim

end Arranger.Text
