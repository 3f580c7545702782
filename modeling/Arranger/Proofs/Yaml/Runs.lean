import Arranger.Yaml.Style
import Mathlib.Data.List.Basic

/-!
# Runs of a text

The runs of a text are not empty, hold characters of one kind each, change the kind from one to the
next and make up the text.  What is known of the neighbours of a character in a text is known of the
ends of its runs.
-/

namespace Arranger.Yaml

/-- The text that runs make up. -/
def joined (rs : List (RunKind × List Char)) : List Char := rs.flatMap (·.2)

def AreRuns : List (RunKind × List Char) → Prop
  | [] => True
  | (kind, run) :: rest =>
      run ≠ [] ∧ (∀ c ∈ run, RunKind.of c = kind) ∧ (∀ next ∈ rest.head?, next.1 ≠ kind) ∧
        AreRuns rest

theorem joined_runs (s : List Char) : joined (runs s) = s := by
  induction s with
  | nil => rfl
  | cons c rest ih =>
      unfold runs
      cases hruns : runs rest with
      | nil =>
          rw [hruns] at ih
          have hnil : rest = [] := by simpa [joined] using ih.symm
          simp [joined, hnil]
      | cons first more =>
          obtain ⟨kind, run⟩ := first
          rw [hruns] at ih
          simp only [joined, List.flatMap_cons] at ih
          by_cases hkind : kind = RunKind.of c
          · simp [hkind, joined, ih]
          · simp [hkind, joined, ih]

theorem areRuns_runs (s : List Char) : AreRuns (runs s) := by
  induction s with
  | nil => trivial
  | cons c rest ih =>
      unfold runs
      cases hruns : runs rest with
      | nil => simp [AreRuns]
      | cons first more =>
          obtain ⟨kind, run⟩ := first
          rw [hruns] at ih
          obtain ⟨hne, hall, hnext, hmore⟩ := ih
          by_cases hkind : kind = RunKind.of c
          · simp only [hkind, if_true]
            refine ⟨by simp, ?_, ?_, hmore⟩
            · intro d hd
              rcases List.mem_cons.1 hd with rfl | hd
              · rfl
              · rw [hall d hd, hkind]
            · rw [← hkind]
              exact hnext
          · simp only [hkind, if_false]
            exact ⟨by simp, by simp, by simpa using hkind, hne, hall, hnext, hmore⟩

theorem length_le_writeRuns
    {rs : List (RunKind × List Char)} (hrs : AreRuns rs) {word : List Char → List Char}
    (hword : ∀ run, run ≠ [] → word run ≠ []) (mayFold : Bool) (indent : Nat) (isFirst : Bool)
    (column : Nat) : rs.length ≤ (writeRuns mayFold word indent isFirst column rs).length := by
  induction rs generalizing isFirst column with
  | nil => simp
  | cons first rest ih =>
      obtain ⟨kind, run⟩ := first
      obtain ⟨hne, -, -, hrest⟩ := hrs
      have hrun : 0 < run.length := List.length_pos_iff.2 hne
      have hwritten : 0 < (word run).length := List.length_pos_iff.2 (hword run hne)
      cases kind with
      | word =>
          have htail := ih hrest false (column + (word run).length)
          simp only [writeRuns, List.length_append, List.length_cons]
          omega
      | breaks =>
          have htail := ih hrest false indent
          simp only [writeRuns, List.length_append, List.length_cons]
          omega
      | spaces =>
          simp only [writeRuns]
          split
          · have htail := ih hrest false indent
            simp only [List.length_append, List.length_cons]
            omega
          · have htail := ih hrest false (column + run.length)
            simp only [List.length_append, List.length_cons]
            omega

/-! ## Kinds -/

theorem RunKind.of_eq_spaces_iff (c : Char) : RunKind.of c = .spaces ↔ c = ' ' := by
  unfold RunKind.of
  split
  · next h => simp [h]
  · next h => split <;> simp [h]

theorem RunKind.of_eq_breaks_iff (c : Char) : RunKind.of c = .breaks ↔ c = '\n' := by
  unfold RunKind.of
  split
  · next h => simp [h]
  · next h =>
    split
    · next hbreak => simp [hbreak]
    · next hbreak => simp [hbreak]

theorem RunKind.of_eq_word_iff (c : Char) : RunKind.of c = .word ↔ c ≠ ' ' ∧ c ≠ '\n' := by
  unfold RunKind.of
  split
  · next h => simp [h]
  · next h =>
    split
    · next hbreak => simp [hbreak]
    · next hbreak => simp [h, hbreak]

theorem eq_spaces_of_kind {run : List Char} (h : ∀ c ∈ run, RunKind.of c = .spaces) :
    run = spaces run.length := by
  rw [spaces, List.eq_replicate_iff]
  exact ⟨rfl, fun c hc => (RunKind.of_eq_spaces_iff c).1 (h c hc)⟩

theorem eq_feeds_of_kind {run : List Char} (h : ∀ c ∈ run, RunKind.of c = .breaks) :
    run = List.replicate run.length '\n' := by
  rw [List.eq_replicate_iff]
  exact ⟨rfl, fun c hc => (RunKind.of_eq_breaks_iff c).1 (h c hc)⟩

/-! ## Indicators inside a text -/

theorem hasInnerIndicator_append {previous : Char} {a b : List Char} (ha : a ≠ [])
    (h : hasInnerIndicator previous (a ++ b) = false) :
    hasInnerIndicator (a.getLast ha) b = false := by
  induction a generalizing previous with
  | nil => exact absurd rfl ha
  | cons c rest ih =>
      simp only [List.cons_append, hasInnerIndicator, Bool.or_eq_false_iff] at h
      cases rest with
      | nil => exact h.2
      | cons d rest =>
          have hrest := ih (by simp) h.2
          simpa using hrest

theorem isSpaceOrBreak_behind_colon {previous : Char} {a b : List Char}
    (h : hasInnerIndicator previous (a ++ ':' :: b) = false) :
    b.head?.all isSpaceOrBreak = false := by
  induction a generalizing previous with
  | nil =>
      simp only [List.nil_append, hasInnerIndicator, Bool.or_eq_false_iff] at h
      simpa using h.1.1
  | cons c rest ih =>
      simp only [List.cons_append, hasInnerIndicator, Bool.or_eq_false_iff] at h
      exact ih h.2

end Arranger.Yaml
