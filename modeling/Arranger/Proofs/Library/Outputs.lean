import Arranger.Proofs.Library.Effects

/-!
# Where outputs lie

The name of an output may hold slashes, lead upwards or be absolute, so that programs and renderings
can be written to any directory.  But the last part of their paths ends as they do, and therefore
they are never files of arrangements.
-/

namespace Arranger

theorem Text.getLast?_splitOn_append
    {p : Char → Bool} {s : List Char} (hs : ∀ c ∈ s, p c = false) (u : List Char) :
    ∃ piece, (Text.splitOn p (u ++ s)).getLast? = some (piece ++ s) := by
  induction u with
  | nil => exact ⟨[], by rw [List.nil_append, Library.splitOn_of_not_mem hs]; rfl⟩
  | cons c u ih =>
      obtain ⟨piece, hlast⟩ := ih
      rw [List.cons_append, Text.splitOn]
      split
      · exact ⟨piece, by rw [List.getLast?_cons, hlast]; rfl⟩
      · cases hrest : Text.splitOn p (u ++ s) with
        | nil => exact absurd hrest (Text.splitOn_ne_nil p _)
        | cons first pieces =>
            rw [hrest] at hlast
            cases pieces with
            | nil =>
                have hfirst : first = piece ++ s := by simpa using hlast
                exact ⟨c :: piece, by simp [hfirst]⟩
            | cons second more =>
                rw [List.getLast?_cons_cons] at hlast
                exact ⟨piece, by rw [List.getLast?_cons_cons, hlast]⟩

namespace Path

/-- The last part of a path that ends in an ending ends in it too. -/
theorem partsOf_append
    {ending : String} (hslash : '/' ∉ ending.toList) (hlong : 2 < ending.toList.length)
    (text : String) :
    ∃ front part, partsOf (text ++ ending) = front ++ [part] ∧ ending.toList <:+ part.toList := by
  have hplain : ∀ c ∈ ending.toList, decide (c = '/') = false := by
    intro c hc
    simpa using fun heq : c = '/' => hslash (heq ▸ hc)
  obtain ⟨piece, hlast⟩ := Text.getLast?_splitOn_append hplain text.toList
  obtain ⟨pieces, hpieces⟩ := List.getLast?_eq_some_iff.1 hlast
  let part := String.ofList (piece ++ ending.toList)
  have hpart : part.toList = piece ++ ending.toList := String.toList_ofList
  have hlength : 2 < part.toList.length := by
    rw [hpart, List.length_append]
    omega
  have hkept : (!part.isEmpty && part != ".") = true := by
    have hempty : part ≠ "" := by
      intro heq
      rw [heq] at hlength
      exact absurd hlength (by decide)
    have hpoint : part ≠ "." := by
      intro heq
      rw [heq] at hlength
      exact absurd hlength (by decide)
    simp [hempty, hpoint]
  refine ⟨(pieces.map String.ofList).filter (fun s => !s.isEmpty && s != "."), part, ?_, ?_⟩
  · rw [partsOf, String.toList_append, hpieces, List.map_append, List.filter_append]
    have hlastKept : [part].filter (fun s => !s.isEmpty && s != ".") = [part] :=
      List.filter_cons_of_pos hkept
    exact congrArg _ hlastKept
  · rw [hpart]
    exact List.suffix_append _ _

theorem parts_join_append
    {ending : String} (hslash : '/' ∉ ending.toList) (hlong : 2 < ending.toList.length)
    (p : Path) (text : String) :
    ∃ front part, (p.join (text ++ ending)).parts = front ++ [part] ∧
      ending.toList <:+ part.toList := by
  obtain ⟨front, part, hparts, hsuffix⟩ := partsOf_append hslash hlong text
  unfold join
  split
  · exact ⟨front, part, hparts, hsuffix⟩
  · exact ⟨p.parts ++ front, part, by simp [hparts], hsuffix⟩

end Path

/-- A path with a last part that does not lead upwards leads into the directory before it. -/
theorem FileTree.locate_of_last
    {t : FileTree} {p : Path} {place : Place} {front : List String} {part : String}
    (hparts : p.parts = front ++ [part]) (hpart : part ≠ "..") (hlocate : t.locate p = .ok place) :
    ∃ parent, place = parent ++ [part] := by
  obtain ⟨-, hwalk⟩ := locate_eq_walk hlocate
  rw [hparts, walk_append] at hwalk
  cases hfront : t.walk p.base front with
  | error reason => simp [hfront, Except.bind] at hwalk
  | ok parent =>
      simp only [hfront, Except.bind, walk] at hwalk
      split at hwalk
      · simp at hwalk
      · simp at hwalk
      · rw [if_neg hpart] at hwalk
        split at hwalk
        · simp at hwalk
        · exact ⟨parent, (Except.ok.inj hwalk).symm⟩

namespace Library

variable {w : Workspace} {t : FileTree} {p : Path} {q : Place}

/-- The ending of an output. -/
def IsEnding (part : String) : Prop :=
  Export.programSuffix.toList <:+ part.toList ∨ Export.midiSuffix.toList <:+ part.toList

theorem IsOutput.last_of_locate
    (hp : IsOutput w p) (hlocate : t.locate p = .ok q) :
    ∃ parent part, q = parent ++ [part] ∧ IsEnding part := by
  have hlast : ∃ front part, p.parts = front ++ [part] ∧ IsEnding part := by
    cases hp with
    | program name =>
        have hslash : '/' ∉ Export.programSuffix.toList := by decide
        obtain ⟨front, part, hparts, hsuffix⟩ :=
          Path.parts_join_append hslash (by decide) w.output name
        exact ⟨front, part, hparts, Or.inl hsuffix⟩
    | rendering name =>
        have hslash : '/' ∉ Export.midiSuffix.toList := by decide
        obtain ⟨front, part, hparts, hsuffix⟩ :=
          Path.parts_join_append hslash (by decide) w.output name
        exact ⟨front, part, hparts, Or.inr hsuffix⟩
  obtain ⟨front, part, hparts, hending⟩ := hlast
  have hpart : part ≠ ".." := by
    rintro rfl
    exact absurd hending (by unfold IsEnding; decide)
  obtain ⟨parent, hparent⟩ := FileTree.locate_of_last hparts hpart hlocate
  exact ⟨parent, part, hparent, hending⟩

/-- No output ends as the file of an arrangement does. -/
theorem not_isEnding_of_suffix
    {part : String} (h : fileSuffix.toList <:+ part.toList) : ¬IsEnding part := by
  rintro (hending | hending)
  · exact absurd (List.suffix_of_suffix_length_le hending h (by decide)) (by decide)
  · exact absurd (List.suffix_of_suffix_length_le hending h (by decide)) (by decide)

theorem not_isEnding_fileName (name : String) : ¬IsEnding (fileName name) :=
  not_isEnding_of_suffix (List.isSuffixOf_iff_suffix.1 (isSuffixOf_fileName name))

end Library

end Arranger
