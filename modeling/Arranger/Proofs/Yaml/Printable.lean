import Arranger.Proofs.Yaml.Quoting
import Arranger.Yaml.Write

/-!
# Printable documents

A text is written with printable ASCII characters and line breaks only, whatever characters it
holds.
-/

namespace Arranger.Yaml

/-- A text that no escape is needed for. -/
def IsPrintable (s : List Char) : Prop := ∀ c ∈ s, needsEscape c = false

theorem isPrintable_nil : IsPrintable [] := fun _ hc => absurd hc List.not_mem_nil

theorem IsPrintable.append {s t : List Char} (hs : IsPrintable s) (ht : IsPrintable t) :
    IsPrintable (s ++ t) := by
  intro c hc
  rcases List.mem_append.1 hc with hmem | hmem
  · exact hs c hmem
  · exact ht c hmem

theorem IsPrintable.cons {c : Char} {s : List Char} (hc : needsEscape c = false)
    (hs : IsPrintable s) :
    IsPrintable (c :: s) := by
  intro d hd
  rcases List.mem_cons.1 hd with rfl | hmem
  · exact hc
  · exact hs d hmem

theorem isPrintable_spaces (n : Nat) : IsPrintable (spaces n) := by
  intro c hc
  rw [List.eq_of_mem_replicate hc]
  decide

theorem isPrintable_of_isPlainAscii {s : List Char} (h : ∀ c ∈ s, isPlainAscii c = true) :
    IsPrintable s := by
  intro c hc
  rw [needsEscape, h c hc]
  exact Bool.and_false _

theorem isPrintable_doubleQuotes {run : List Char} (h : IsPrintable run) :
    IsPrintable (doubleQuotes run) := by
  intro c hc
  obtain ⟨d, hd, hmem⟩ := List.mem_flatMap.1 hc
  split at hmem
  · rcases List.mem_pair.1 hmem with rfl | rfl
    · exact h c hd
    · exact h c hd
  · rw [List.mem_singleton.1 hmem]
    exact h d hd

theorem isPrintable_writeRuns
    {word : List Char → List Char} (hword : ∀ run, IsPrintable run → IsPrintable (word run))
    {rs : List (RunKind × List Char)} (hrs : ∀ r ∈ rs, IsPrintable r.2)
    (mayFold : Bool) (indent : Nat) (isFirst : Bool) (column : Nat) :
    IsPrintable (writeRuns mayFold word indent isFirst column rs) := by
  induction rs generalizing isFirst column with
  | nil => exact isPrintable_nil
  | cons r rs ih =>
      obtain ⟨kind, run⟩ := r
      have hrun : IsPrintable run := hrs (kind, run) List.mem_cons_self
      have hrest := ih fun r hr => hrs r (List.mem_cons_of_mem _ hr)
      have hline := IsPrintable.cons (c := '\n') (by decide) (isPrintable_spaces indent)
      cases kind with
      | word => exact (hword run hrun).append (hrest _ _)
      | breaks =>
          have hbreaks := IsPrintable.cons (c := '\n') (by decide) hrun
          exact (hbreaks.append (isPrintable_spaces indent)).append (hrest _ _)
      | spaces =>
          rw [writeRuns]
          split
          · exact hline.append (hrest _ _)
          · exact hrun.append (hrest _ _)

theorem isPrintable_runs {s : List Char} (hs : IsPrintable s) : ∀ r ∈ runs s, IsPrintable r.2 := by
  intro r hr c hc
  apply hs
  rw [← joined_runs s]
  exact List.mem_flatMap.2 ⟨r, hr, hc⟩

theorem isPrintable_hex (width n : Nat) : IsPrintable (Text.hex .upper width n) := by
  apply isPrintable_of_isPlainAscii
  intro c hc
  have hsome := isSome_hexValue?_of_mem hc
  have hrange : ('0' ≤ c ∧ c ≤ '9') ∨ ('a' ≤ c ∧ c ≤ 'f') ∨ ('A' ≤ c ∧ c ≤ 'F') := by
    unfold Text.hexValue? at hsome
    simp only [Bool.and_eq_true, decide_eq_true_eq] at hsome
    split at hsome
    · next h => exact .inl h
    · split at hsome
      · next h => exact .inr (.inl h)
      · split at hsome
        · next h => exact .inr (.inr h)
        · exact absurd hsome (by decide)
  rw [isPlainAscii, Bool.and_eq_true, decide_eq_true_eq, decide_eq_true_eq]
  rcases hrange with ⟨hlow, hhigh⟩ | ⟨hlow, hhigh⟩ | ⟨hlow, hhigh⟩
  · exact ⟨Char.le_trans (by decide) hlow, Char.le_trans hhigh (by decide)⟩
  · exact ⟨Char.le_trans (by decide) hlow, Char.le_trans hhigh (by decide)⟩
  · exact ⟨Char.le_trans (by decide) hlow, Char.le_trans hhigh (by decide)⟩

theorem isPrintable_of_doubleEscape? {c : Char} {escape : List Char}
    (h : doubleEscape? c = some escape) :
    IsPrintable escape := by
  unfold doubleEscape? at h
  split at h
  · exact absurd h (by simp)
  · split at h
    · next letter hletter =>
      have hall : ∀ entry ∈ letterEscapes, needsEscape entry.2 = false := by decide
      rw [← Option.some.inj h]
      exact (isPrintable_nil.cons (hall _ (mem_letterEscapes hletter))).cons (by decide)
    · dsimp only at h
      split at h
      · rw [← Option.some.inj h]
        exact ((isPrintable_hex 2 _).cons (by decide)).cons (by decide)
      · split at h
        · rw [← Option.some.inj h]
          exact ((isPrintable_hex 4 _).cons (by decide)).cons (by decide)
        · rw [← Option.some.inj h]
          exact ((isPrintable_hex 8 _).cons (by decide)).cons (by decide)

theorem isPrintable_of_doubleForm {p : CodePoint} {escape : List Char}
    (h : doubleForm p = .inr escape) : IsPrintable escape := by
  cases p with
  | char c =>
      cases hescape : doubleEscape? c with
      | none => simp [doubleForm, hescape] at h
      | some found =>
          obtain rfl : found = escape := by simpa [doubleForm, hescape] using h
          exact isPrintable_of_doubleEscape? hescape
  | surrogate half =>
      rw [← Sum.inr.inj h]
      exact ((isPrintable_hex 4 _).cons (by decide)).cons (by decide)

theorem isPrintable_escapedLineEnd (indent : Nat) (next : Option CodePoint) :
    IsPrintable (escapedLineEnd indent next) := by
  have hmark : IsPrintable (if next = some (.char ' ') then ['\\'] else []) := by
    split
    · exact isPrintable_nil.cons (by decide)
    · exact isPrintable_nil
  exact (((isPrintable_spaces indent).append hmark).cons (by decide)).cons (by decide)

theorem isPrintable_writeEscaped
    (mayFold : Bool) (indent : Nat) (isFirst isFresh : Bool) (column : Nat)
    (points : List CodePoint) :
    IsPrintable (writeEscaped mayFold indent isFirst isFresh column points) := by
  induction points generalizing isFirst isFresh column with
  | nil => exact isPrintable_nil
  | cons p points ih =>
      rw [writeEscaped]
      dsimp only
      split
      · next escape hform =>
        have hprintable := isPrintable_of_doubleForm hform
        split
        · exact (hprintable.append (isPrintable_escapedLineEnd _ _)).append (ih _ _ _)
        · exact hprintable.append (ih _ _ _)
      · next c hform =>
        have hc : needsEscape c = false := by
          rw [needsEscape, (isPlainAscii_of_doubleEscape? (doubleForm_eq_inl hform).2).1]
          exact Bool.and_false _
        split
        · exact (isPrintable_escapedLineEnd _ _).append ((ih _ _ _).cons hc)
        · exact (ih _ _ _).cons hc

theorem isPrintable_writeDouble
    (mayFold : Bool) (column indent : Nat) (points : List CodePoint) :
    IsPrintable (writeDouble mayFold column indent points) := by
  have hwritten := isPrintable_writeEscaped mayFold indent true true (column + 1) points
  exact (hwritten.cons (by decide)).append (isPrintable_nil.cons (by decide))

/-- A text is printable in whatever style it is written. -/
theorem isPrintable_writeText (mayFold : Bool) (column indent : Nat) (s : List Char) :
    IsPrintable (writeText mayFold column indent s) := by
  have hstyle : styleOf s ≠ .double → IsPrintable s := by
    intro hne c hc
    by_contra hneeds
    rw [Bool.not_eq_false] at hneeds
    have hany : s.any needsEscape = true := List.any_eq_true.2 ⟨c, hc, hneeds⟩
    exact hne (by simp [styleOf, hany])
  unfold writeText
  split
  · next hplain =>
    have hs := hstyle (by rw [hplain]; decide)
    exact isPrintable_writeRuns (fun _ h => h) (isPrintable_runs hs) _ _ _ _
  · next hsingle =>
    have hs := hstyle (by rw [hsingle]; decide)
    have hruns := isPrintable_writeRuns (fun _ => isPrintable_doubleQuotes) (isPrintable_runs hs)
      mayFold indent true (column + 1)
    exact (hruns.cons (by decide)).append (isPrintable_nil.cons (by decide))
  · exact isPrintable_writeDouble _ _ _ _

end Arranger.Yaml
