import Arranger.Yaml.Style
import Arranger.Yaml.Token.Scalar
import Mathlib.Data.List.Basic

/-!
# Moving through a text

A cursor that passes over known text stands at what follows it.  Its column is the one before plus
the length of the text on a line, and the length of the indentation behind a line feed.
-/

namespace Arranger.Yaml

/-- The place behind a text that is followed by another one. -/
def Mark.through (m : Mark) (rest : List Char) : List Char → Mark
  | [] => m
  | c :: s => (m.after c ((s ++ rest).headD ending)).through rest s

theorem Mark.through_append (m : Mark) (rest s t : List Char) :
    m.through rest (s ++ t) = (m.through (t ++ rest) s).through rest t := by
  induction s generalizing m with
  | nil => rfl
  | cons c s ih =>
      simp only [List.cons_append, Mark.through, List.append_assoc]
      exact ih _

/-- A character that takes one column of a line. -/
def IsInline (c : Char) : Prop := isBreak c = false ∧ c ≠ byteOrderMark

theorem Mark.after_of_inline {c : Char} (hc : IsInline c) (m : Mark) (next : Char) :
    m.after c next = ⟨m.index + 1, m.line, m.column + 1⟩ := by
  obtain ⟨hbreak, hmark⟩ := hc
  simp only [isBreak, Bool.or_eq_false_iff, decide_eq_false_iff_not] at hbreak
  obtain ⟨⟨⟨⟨hreturn, hfeed⟩, hnext⟩, hline⟩, hparagraph⟩ := hbreak
  simp [Mark.after, hreturn, hfeed, hnext, hline, hparagraph, hmark]

theorem Mark.through_of_inline {s : List Char} (hs : ∀ c ∈ s, IsInline c) (m : Mark)
    (rest : List Char) :
    m.through rest s = ⟨m.index + s.length, m.line, m.column + s.length⟩ := by
  induction s generalizing m with
  | nil => rfl
  | cons c s ih =>
      have hrest := ih (fun d hd => hs d (by simp [hd]))
      rw [Mark.through, Mark.after_of_inline (hs c (by simp)), hrest]
      simp only [List.length_cons]
      congr 1 <;> omega

theorem isInline_space : IsInline ' ' := by
  constructor <;> decide

theorem isInline_of_mem_spaces {n : Nat} {c : Char} (hc : c ∈ spaces n) : IsInline c := by
  rw [List.eq_of_mem_replicate hc]
  exact isInline_space

theorem isInline_of_isPlainAscii {c : Char} (hc : isPlainAscii c = true) : IsInline c := by
  have hrange : 32 ≤ c.toNat ∧ c.toNat ≤ 126 := by
    simpa [isPlainAscii, Char.le_def, UInt32.le_iff_toNat_le] using hc
  have hne : ∀ d : Char, d.toNat < 32 ∨ 126 < d.toNat → c ≠ d := by
    rintro d hd rfl
    omega
  constructor
  · simp [isBreak, hne '\r' (by decide), hne '\n' (by decide), hne '\x85' (by decide),
      hne '\u2028' (by decide), hne '\u2029' (by decide)]
  · exact hne byteOrderMark (by decide)

theorem Mark.through_feed (m : Mark) (n : Nat) (rest : List Char) :
    (m.through rest ('\n' :: spaces n)).column = n := by
  rw [Mark.through, Mark.through_of_inline fun c hc => isInline_of_mem_spaces hc]
  simp [Mark.after, spaces]

namespace Cursor

theorem next_cons (c : Char) (rest : List Char) (m : Mark) :
    (⟨c :: rest, m⟩ : Cursor).next = ⟨rest, m.after c (rest.headD ending)⟩ := rfl

theorem advance_append (s rest : List Char) (m : Mark) :
    (⟨s ++ rest, m⟩ : Cursor).advance s.length = ⟨rest, m.through rest s⟩ := by
  induction s generalizing m with
  | nil => rfl
  | cons c s ih =>
      rw [List.cons_append, List.length_cons, advance, next_cons, ih]
      rfl

theorem spanFrom_append_of_all
    {p : Char → Bool} {s rest : List Char} (hs : ∀ c ∈ s, p c = true)
    (hrest : ∀ c, rest.head? = some c → p c = false) (m : Mark) :
    spanFrom p (s ++ rest) m = (s, ⟨rest, m.through rest s⟩) := by
  induction s generalizing m with
  | nil =>
      cases rest with
      | nil => rfl
      | cons c rest =>
          have hc : p c = false := hrest c rfl
          simp [spanFrom, hc, Mark.through]
  | cons c s ih =>
      have hc : p c = true := hs c (by simp)
      have htail := ih (fun d hd => hs d (by simp [hd])) (m.after c ((s ++ rest).headD ending))
      rw [List.cons_append, spanFrom, if_pos hc, htail]
      rfl

theorem span_append_of_all
    {p : Char → Bool} {s rest : List Char} (hs : ∀ c ∈ s, p c = true)
    (hrest : ∀ c, rest.head? = some c → p c = false) (m : Mark) :
    (⟨s ++ rest, m⟩ : Cursor).span p = (s, ⟨rest, m.through rest s⟩) :=
  spanFrom_append_of_all hs hrest m

theorem span_spaces
    {rest : List Char} (hrest : rest.head? ≠ some ' ') (n : Nat) (m : Mark) :
    (⟨spaces n ++ rest, m⟩ : Cursor).span (· = ' ') =
      (spaces n, ⟨rest, m.through rest (spaces n)⟩) := by
  apply span_append_of_all
  · intro c hc
    simp [List.eq_of_mem_replicate hc]
  · intro c hc
    have hne : c ≠ ' ' := by
      rintro rfl
      exact hrest hc
    simpa using hne

theorem skipSpaces_spaces
    {rest : List Char} (hrest : rest.head? ≠ some ' ') (n : Nat) (m : Mark) :
    (⟨spaces n ++ rest, m⟩ : Cursor).skipSpaces = ⟨rest, m.through rest (spaces n)⟩ := by
  rw [skipSpaces, skip, span_spaces hrest]

theorem skipSpaces_of_head
    {rest : List Char} (hrest : rest.head? ≠ some ' ') (m : Mark) :
    (⟨rest, m⟩ : Cursor).skipSpaces = ⟨rest, m⟩ :=
  skipSpaces_spaces hrest 0 m

@[simp]
theorem lineBreak_feed (rest : List Char) (m : Mark) :
    (⟨'\n' :: rest, m⟩ : Cursor).lineBreak = some ('\n', ⟨rest, m.through rest ['\n']⟩) := by
  simp [lineBreak, isBreak, next_cons, Mark.through]

theorem lineBreak_of_not_isBreak
    {rest : List Char} (hrest : ∀ c, rest.head? = some c → isBreak c = false) (m : Mark) :
    (⟨rest, m⟩ : Cursor).lineBreak = none := by
  cases rest with
  | nil => rfl
  | cons c rest =>
      have hc := hrest c rfl
      simp only [isBreak, Bool.or_eq_false_iff, decide_eq_false_iff_not] at hc
      obtain ⟨⟨⟨⟨hreturn, hfeed⟩, hnext⟩, hline⟩, hparagraph⟩ := hc
      simp [lineBreak, isBreak, hreturn, hfeed, hnext, hline, hparagraph]

theorem atDocumentMarker_of_space (rest : List Char) (m : Mark) :
    (⟨' ' :: rest, m⟩ : Cursor).atDocumentMarker = false := by
  simp [atDocumentMarker]

end Cursor

end Arranger.Yaml
