import Arranger.Proofs.Files.Tree
import Arranger.Workspace.Library

/-!
# Names of arrangements and their files

The file of a name lies directly in the directory of arrangements, under one part that no slash and
no leading point can turn into something else.  Two names have the same file if they differ only in
spaces, slashes and underscores.
-/

namespace Arranger.Library

theorem toList_fileName (name : String) :
    (fileName name).toList = name.toList.map fileNameChar ++ fileSuffix.toList := by
  simp [fileName]

theorem slash_not_mem_fileName (name : String) : '/' ∉ (fileName name).toList := by
  rw [toList_fileName, List.mem_append, List.mem_map]
  rintro (⟨c, -, hc⟩ | hsuffix)
  · unfold fileNameChar at hc
    split at hc
    · exact absurd hc (by decide)
    · next hplain => exact hplain (by simp [hc])
  · exact absurd hsuffix (by decide)

theorem suffixLength_le_fileName (name : String) :
    fileSuffix.toList.length ≤ (fileName name).toList.length := by
  rw [toList_fileName, List.length_append]
  exact Nat.le_add_left _ _

theorem fileName_ne_of_short
    {text : String} (htext : text.toList.length < fileSuffix.toList.length) (name : String) :
    fileName name ≠ text := by
  intro heq
  have hle := suffixLength_le_fileName name
  rw [heq] at hle
  exact absurd htext (by omega)

theorem null_mem_fileName_iff (name : String) :
    '\x00' ∈ (fileName name).toList ↔ '\x00' ∈ name.toList := by
  rw [toList_fileName, List.mem_append, List.mem_map]
  constructor
  · rintro (⟨c, hc, heq⟩ | hsuffix)
    · unfold fileNameChar at heq
      split at heq
      · exact absurd heq (by decide)
      · exact heq ▸ hc
    · exact absurd hsuffix (by decide)
  · intro hnull
    exact Or.inl ⟨'\x00', hnull, by decide⟩

theorem isSuffixOf_fileName (name : String) :
    fileSuffix.toList.isSuffixOf (fileName name).toList = true := by
  rw [List.isSuffixOf_iff_suffix, toList_fileName]
  exact List.suffix_append _ _

/-! ## Names of one file -/

/-- No other name has the file of a plain name. -/
def IsPlain (name : String) : Prop := ∀ c ∈ name.toList, c ≠ ' ' ∧ c ≠ '/' ∧ c ≠ '_'

instance (name : String) : Decidable (IsPlain name) :=
  List.decidableBAll (fun c => c ≠ ' ' ∧ c ≠ '/' ∧ c ≠ '_') name.toList

theorem fileName_eq_iff {m n : String} :
    fileName m = fileName n ↔ m.toList.map fileNameChar = n.toList.map fileNameChar := by
  rw [← String.toList_inj, toList_fileName, toList_fileName, List.append_cancel_right_eq]

theorem eq_of_fileNameChar_eq
    {c d : Char} (hd : d ≠ ' ' ∧ d ≠ '/' ∧ d ≠ '_') (h : fileNameChar c = fileNameChar d) :
    c = d := by
  have hplain : fileNameChar d = d := by simp [fileNameChar, hd]
  rw [hplain] at h
  unfold fileNameChar at h
  split at h
  · exact absurd h.symm hd.2.2
  · exact h

theorem eq_of_map_fileNameChar_eq
    {s t : List Char} (ht : ∀ c ∈ t, c ≠ ' ' ∧ c ≠ '/' ∧ c ≠ '_')
    (h : s.map fileNameChar = t.map fileNameChar) : s = t := by
  induction t generalizing s with
  | nil => simpa using h
  | cons d t ih =>
      cases s with
      | nil => simp at h
      | cons c s =>
          simp only [List.map_cons, List.cons.injEq] at h
          have hhead := eq_of_fileNameChar_eq (ht d List.mem_cons_self) h.1
          have htail := ih (fun e he => ht e (List.mem_cons_of_mem d he)) h.2
          rw [hhead, htail]

theorem IsPlain.eq_of_fileName_eq
    {m n : String} (hn : IsPlain n) (h : fileName m = fileName n) : m = n := by
  rw [fileName_eq_iff] at h
  rw [← String.toList_inj]
  exact eq_of_map_fileNameChar_eq hn h

/-- The name with each of a space, a slash and an underscore replaced by the next of them. -/
def respelled (name : String) : String :=
  String.ofList <| name.toList.map fun c =>
    if c = ' ' then '/' else if c = '/' then '_' else if c = '_' then ' ' else c

theorem fileName_respelled (name : String) : fileName (respelled name) = fileName name := by
  rw [fileName_eq_iff, respelled, String.toList_ofList, List.map_map]
  apply List.map_congr_left
  intro c _
  by_cases hspace : c = ' '
  · simp [hspace, fileNameChar]
  by_cases hslash : c = '/'
  · simp [hslash, fileNameChar]
  by_cases hunderscore : c = '_'
  · simp [hunderscore, fileNameChar]
  · simp [hspace, hslash, hunderscore]

theorem isPlain_of_respelled_eq {name : String} (h : respelled name = name) : IsPlain name := by
  have hchars := congrArg String.toList h
  rw [respelled, String.toList_ofList] at hchars
  intro c hc
  have hfix := List.map_inj_left.1 (hchars.trans (List.map_id _).symm) c hc
  refine ⟨?_, ?_, ?_⟩
  all_goals
    rintro rfl
    exact absurd hfix (by decide)

/-- A name that is not plain shares its file with another name. -/
theorem exists_ne_of_not_isPlain {name : String} (h : ¬IsPlain name) :
    ∃ other, other ≠ name ∧ fileName other = fileName name :=
  ⟨respelled name, fun heq => h (isPlain_of_respelled_eq heq), fileName_respelled name⟩

/-! ## The parts of a path -/

theorem splitOn_of_not_mem
    {p : Char → Bool} {s : List Char} (hs : ∀ c ∈ s, p c = false) : Text.splitOn p s = [s] := by
  induction s with
  | nil => rfl
  | cons c rest ih =>
      have hc : p c = false := hs c (by simp)
      have hrest := ih fun d hd => hs d (by simp [hd])
      simp [Text.splitOn, hc, hrest]

theorem partsOf_fileName (name : String) : Path.partsOf (fileName name) = [fileName name] := by
  have hsplit : Text.splitOn (· = '/') (fileName name).toList = [(fileName name).toList] := by
    apply splitOn_of_not_mem
    intro c hc
    have hne : c ≠ '/' := fun heq => slash_not_mem_fileName name (heq ▸ hc)
    simpa using hne
  have hempty : fileName name ≠ "" := fileName_ne_of_short (by decide) name
  have hpoint : fileName name ≠ "." := fileName_ne_of_short (by decide) name
  simp [Path.partsOf, hsplit, hempty, hpoint]

theorem pathOf_eq (w : Workspace) (name : String) :
    pathOf w name =
      { w.arrangements with parts := w.arrangements.parts ++ [fileName name] } := by
  have hhead : (fileName name).toList.head? ≠ some '/' := by
    intro h
    exact slash_not_mem_fileName name (List.mem_of_mem_head? h)
  simp [pathOf, Path.join, hhead, partsOf_fileName]

/-! ## The place of a file -/

/-- A name whose file can lie in a directory. -/
def IsLegal (name : String) : Prop :=
  '\x00' ∉ name.toList ∧ (fileName name).utf8ByteSize ≤ FileTree.nameLimit

instance (name : String) : Decidable (IsLegal name) := by
  unfold IsLegal
  infer_instance

theorem isLegal_congr {m n : String} (h : fileName m = fileName n) : IsLegal m ↔ IsLegal n := by
  unfold IsLegal
  rw [← null_mem_fileName_iff m, ← null_mem_fileName_iff n, h]

theorem hasNull_pathOf
    {w : Workspace} {name : String} (hpath : w.arrangements.hasNull = false)
    (hname : IsLegal name) : (pathOf w name).hasNull = false := by
  have hnull : '\x00' ∉ (fileName name).toList := fun h =>
    hname.1 ((null_mem_fileName_iff name).1 h)
  rw [pathOf_eq]
  simp only [Path.hasNull, List.any_append, List.any_cons, List.any_nil, Bool.or_false] at hpath ⊢
  rw [hpath]
  simpa using hnull

theorem walk_fileName
    {t : FileTree} {place : Place} {name : String} (hplace : t.at? place = some .directory)
    (hname : IsLegal name) : t.walk place [fileName name] = .ok (place ++ [fileName name]) := by
  have hparent : fileName name ≠ ".." := fileName_ne_of_short (by decide) name
  have hlimit : ¬FileTree.nameLimit < (fileName name).utf8ByteSize := Nat.not_lt.2 hname.2
  simp [FileTree.walk, hplace, hparent, hlimit]

theorem locate_pathOf
    {w : Workspace} {place : Place} {name : String}
    (hlocate : w.files.locate w.arrangements = .ok place)
    (hplace : w.files.at? place = some .directory) (hname : IsLegal name) :
    w.files.locate (pathOf w name) = .ok (place ++ [fileName name]) := by
  obtain ⟨hnull, hwalk⟩ := FileTree.locate_eq_walk hlocate
  have hwalkFile : w.files.walk (pathOf w name).base (pathOf w name).parts =
      .ok (place ++ [fileName name]) := by
    rw [pathOf_eq, FileTree.walk_append, hwalk]
    exact walk_fileName hplace hname
  unfold FileTree.locate
  rw [hasNull_pathOf hnull hname, hwalkFile]
  simp

/-- A path to a file of a name leads nowhere else, and only a legal name has one. -/
theorem locate_pathOf_inv
    {w : Workspace} {place q : Place} {name : String}
    (hlocate : w.files.locate w.arrangements = .ok place)
    (hplace : w.files.at? place = none ∨ w.files.at? place = some .directory)
    (h : w.files.locate (pathOf w name) = .ok q) :
    IsLegal name ∧ w.files.at? place = some .directory ∧ q = place ++ [fileName name] := by
  obtain ⟨-, hwalk⟩ := FileTree.locate_eq_walk hlocate
  obtain ⟨hnull, hwalkFile⟩ := FileTree.locate_eq_walk h
  have hlast : w.files.walk place [fileName name] = .ok q := by
    rw [pathOf_eq, FileTree.walk_append, hwalk] at hwalkFile
    exact hwalkFile
  have hparent : fileName name ≠ ".." := fileName_ne_of_short (by decide) name
  rcases hplace with hnone | hdirectory
  · simp [FileTree.walk, hnone] at hlast
  · simp only [FileTree.walk, hdirectory, hparent, if_false] at hlast
    split at hlast
    · simp at hlast
    · next hlimit =>
      have hchar : '\x00' ∉ name.toList := by
        rw [← null_mem_fileName_iff]
        rw [pathOf_eq] at hnull
        simp [Path.hasNull] at hnull
        exact hnull.2
      exact ⟨⟨hchar, Nat.not_lt.1 hlimit⟩, hdirectory, (Except.ok.inj hlast).symm⟩

theorem has_pathOf_of_absent
    {w : Workspace} {place : Place} {name : String}
    (hlocate : w.files.locate w.arrangements = .ok place)
    (hplace : w.files.at? place = none) (hname : IsLegal name) :
    w.files.has (pathOf w name) = .ok false := by
  obtain ⟨hnull, hwalk⟩ := FileTree.locate_eq_walk hlocate
  have hwalkFile : w.files.walk (pathOf w name).base (pathOf w name).parts = .error .notFound := by
    rw [pathOf_eq, FileTree.walk_append, hwalk]
    simp [FileTree.walk, hplace, Except.bind]
  have herror : w.files.locate (pathOf w name) = .error (.notFound (pathOf w name).text) := by
    unfold FileTree.locate
    rw [hasNull_pathOf hnull hname, hwalkFile]
    simp
  unfold FileTree.has
  rw [herror]

end Arranger.Library
