import Arranger.Files.Tree
import Arranger.Proofs.Keyed

/-!
# Places in trees of files

A directory is known by the entries that lie directly in it.  Writing and removing a file act on
these entries as on a list of files by name, in the order of their last writing, and a path leads to
the same place as long as directories stay directories.
-/

namespace Arranger.FileTree

/-! ## One place -/

theorem at?_put_self
    (t : FileTree) {place : Place} (hplace : place ≠ []) (entry : Entry) :
    (t.put place entry).at? place = some entry := by
  simp only [at?, put, hplace, if_false]
  rw [List.lookup_append, Keyed.lookup_filter_self]
  simp

theorem at?_erase_self
    (t : FileTree) {place : Place} (hplace : place ≠ []) : (t.erase place).at? place = none := by
  simp only [at?, erase, hplace, if_false]
  exact Keyed.lookup_filter_self t.entries place

/-! ## The entries of a directory -/

/-- Whether a place lies directly in the directory at another one. -/
def liesIn (directory place : Place) : Bool :=
  place.length = directory.length + 1 && place.take directory.length = directory

def entriesIn (t : FileTree) (directory : Place) : List (Place × Entry) :=
  t.entries.filter (liesIn directory ·.1)

theorem liesIn_append (directory : Place) (name : String) :
    liesIn directory (directory ++ [name]) = true := by
  simp [liesIn]

theorem liesIn_self (directory : Place) : liesIn directory directory = false := by
  simp [liesIn]

theorem namesIn_eq
    {t : FileTree} {p : Path} {place : Place} (hlocate : t.locate p = .ok place) :
    t.namesIn p = (t.entriesIn place).filterMap (·.1.getLast?) := by
  simp only [namesIn, hlocate, entriesIn, List.filterMap_filter, liesIn]

theorem at?_append_eq_lookup
    (t : FileTree) (directory : Place) (name : String) :
    t.at? (directory ++ [name]) = (t.entriesIn directory).lookup (directory ++ [name]) := by
  simp only [at?, List.append_eq_nil_iff, List.cons_ne_nil, and_false, if_false, entriesIn]
  induction t.entries with
  | nil => rfl
  | cons entry rest ih =>
      obtain ⟨place, x⟩ := entry
      by_cases heq : directory ++ [name] = place
      · subst heq
        simp [liesIn_append]
      · have hne : (directory ++ [name] == place) = false := by simpa using heq
        simp only [List.lookup_cons, hne, List.filter_cons, ih]
        by_cases hin : liesIn directory place = true
        · simp [hin, List.lookup_cons, hne]
        · simp [hin]

theorem entriesIn_put
    (t : FileTree) (directory : Place) (name : String) (entry : Entry) :
    (t.put (directory ++ [name]) entry).entriesIn directory =
      (t.entriesIn directory).filter (·.1 != directory ++ [name]) ++
        [(directory ++ [name], entry)] := by
  simp only [entriesIn, put, List.filter_append, List.filter_filter, List.filter_cons,
    liesIn_append, if_true, List.filter_nil]
  congr 1
  apply List.filter_congr
  intro x _
  rw [Bool.and_comm]

theorem entriesIn_put_of_not_liesIn
    (t : FileTree) {directory place : Place} (hplace : liesIn directory place = false)
    (entry : Entry) :
    (t.put place entry).entriesIn directory = t.entriesIn directory := by
  simp only [entriesIn, put, List.filter_append, List.filter_filter, List.filter_cons, hplace,
    Bool.false_eq_true, if_false, List.filter_nil, List.append_nil]
  apply List.filter_congr
  intro x _
  by_cases heq : x.1 = place
  · simp [heq, hplace]
  · simp [heq]

theorem entriesIn_erase
    (t : FileTree) (directory : Place) (name : String) :
    (t.erase (directory ++ [name])).entriesIn directory =
      (t.entriesIn directory).filter (·.1 != directory ++ [name]) := by
  simp only [entriesIn, erase, List.filter_filter]
  apply List.filter_congr
  intro x _
  rw [Bool.and_comm]

/-! ## Paths to places -/

theorem walk_append
    (t : FileTree) (here : Place) (parts : List String) (name : String) :
    t.walk here (parts ++ [name]) = (t.walk here parts).bind fun place => t.walk place [name] := by
  induction parts generalizing here with
  | nil => rfl
  | cons part rest ih =>
      simp only [List.cons_append]
      rw [walk, walk]
      cases hentry : t.at? here with
      | none => rfl
      | some entry =>
          cases entry with
          | file content stamp => rfl
          | directory =>
              simp only
              split
              · exact ih _
              · split
                · rfl
                · exact ih _

theorem locate_eq_walk
    {t : FileTree} {p : Path} {place : Place} (h : t.locate p = .ok place) :
    p.hasNull = false ∧ t.walk p.base p.parts = .ok place := by
  unfold FileTree.locate at h
  split at h
  · simp at h
  · next hnull =>
    cases hwalk : t.walk p.base p.parts with
    | error reason => simp [hwalk] at h
    | ok here =>
        have heq : here = place := by simpa [hwalk] using h
        exact ⟨by simpa using hnull, by rw [heq]⟩

/-- All directories of a tree are directories of another one. -/
def KeepsDirectories (t u : FileTree) : Prop :=
  ∀ place, t.at? place = some .directory → u.at? place = some .directory

theorem KeepsDirectories.refl (t : FileTree) : t.KeepsDirectories t := fun _ h => h

theorem KeepsDirectories.trans
    {t u v : FileTree} (htu : t.KeepsDirectories u) (huv : u.KeepsDirectories v) :
    t.KeepsDirectories v :=
  fun place h => huv place (htu place h)

theorem keepsDirectories_put_directory (t : FileTree) (place : Place) :
    t.KeepsDirectories (t.put place .directory) := by
  intro other hother
  by_cases heq : place = other
  · subst heq
    by_cases hnil : place = []
    · simp [at?, hnil]
    · exact at?_put_self t hnil _
  · rwa [at?_put_of_ne t heq]

theorem keepsDirectories_put_file
    {t : FileTree} {place : Place} (hplace : t.at? place ≠ some .directory) (entry : Entry) :
    t.KeepsDirectories (t.put place entry) := by
  intro other hother
  have hne : place ≠ other := by
    intro heq
    exact hplace (heq ▸ hother)
  rwa [at?_put_of_ne t hne]

theorem keepsDirectories_erase
    {t : FileTree} {place : Place} (hplace : t.at? place ≠ some .directory) :
    t.KeepsDirectories (t.erase place) := by
  intro other hother
  have hne : place ≠ other := by
    intro heq
    exact hplace (heq ▸ hother)
  rwa [at?_erase_of_ne t hne]

theorem KeepsDirectories.walk
    {t u : FileTree} (hkeep : t.KeepsDirectories u) {here place : Place} {parts : List String}
    (hwalk : t.walk here parts = .ok place) : u.walk here parts = .ok place := by
  induction parts generalizing here with
  | nil => exact hwalk
  | cons part rest ih =>
      rw [FileTree.walk] at hwalk ⊢
      cases hentry : t.at? here with
      | none => simp [hentry] at hwalk
      | some entry =>
          cases entry with
          | file content stamp => simp [hentry] at hwalk
          | directory =>
              rw [hkeep here hentry]
              simp only [hentry] at hwalk ⊢
              split at hwalk
              · next hpart =>
                rw [if_pos hpart]
                exact ih hwalk
              · next hpart =>
                rw [if_neg hpart]
                split at hwalk
                · simp at hwalk
                · next hlimit =>
                  rw [if_neg hlimit]
                  exact ih hwalk

theorem KeepsDirectories.locate
    {t u : FileTree} (hkeep : t.KeepsDirectories u) {p : Path} {place : Place}
    (hlocate : t.locate p = .ok place) : u.locate p = .ok place := by
  unfold FileTree.locate at hlocate ⊢
  split at hlocate
  · simp at hlocate
  · next hnull =>
    rw [if_neg hnull]
    cases hwalk : t.walk p.base p.parts with
    | error reason => simp [hwalk] at hlocate
    | ok here =>
        rw [hwalk] at hlocate
        rw [hkeep.walk hwalk]
        exact hlocate

/-! ## Making a directory -/

/-- The tree with a directory where nothing was. -/
def withDirectory (t : FileTree) (place : Place) : FileTree :=
  if t.at? place = none then t.put place .directory else t

theorem at?_withDirectory_self
    {t : FileTree} {place : Place}
    (hplace : t.at? place = none ∨ t.at? place = some .directory) :
    (t.withDirectory place).at? place = some .directory := by
  unfold withDirectory
  split
  · next hnone =>
    have hne : place ≠ [] := by
      intro hnil
      simp [at?, hnil] at hnone
    exact at?_put_self t hne _
  · next hsome => exact hplace.resolve_left hsome

theorem at?_withDirectory_of_ne
    (t : FileTree) {place other : Place} (hne : place ≠ other) :
    (t.withDirectory place).at? other = t.at? other := by
  unfold withDirectory
  split
  · exact at?_put_of_ne t hne _
  · rfl

theorem keepsDirectories_withDirectory (t : FileTree) (place : Place) :
    t.KeepsDirectories (t.withDirectory place) := by
  unfold withDirectory
  split
  · exact keepsDirectories_put_directory t place
  · exact .refl t

theorem entriesIn_withDirectory (t : FileTree) (place : Place) :
    (t.withDirectory place).entriesIn place = t.entriesIn place := by
  unfold withDirectory
  split
  · exact entriesIn_put_of_not_liesIn t (liesIn_self place) _
  · rfl

theorem isDirectory_of_located
    {t : FileTree} {p : Path} {place : Place} (hlocate : t.locate p = .ok place) :
    t.isDirectory p = decide (t.at? place = some .directory) := by
  simp [isDirectory, hlocate, isDirectoryAt]

theorem makeDirectory_of_located
    {t : FileTree} {p : Path} {place : Place} (hlocate : t.locate p = .ok place) :
    t.makeDirectory p =
      if t.at? place = none then .ok (t.put place .directory) else .error (.occupied p.text) := by
  cases hentry : t.at? place with
  | none => simp [makeDirectory, hlocate, hentry, bind, Except.bind, pure, Except.pure]
  | some entry => simp [makeDirectory, hlocate, hentry, bind, Except.bind]

theorem makeDirectories_of_located
    {t : FileTree} {p : Path} {place : Place} (hlocate : t.locate p = .ok place)
    (hplace : t.at? place = none ∨ t.at? place = some .directory) :
    t.makeDirectories p = .ok (t.withDirectory place) := by
  have hmake := makeDirectory_of_located hlocate
  have hdirectory := isDirectory_of_located hlocate
  rcases hplace with hnone | hsome
  · unfold makeDirectories makeDirectories.go withDirectory
    cases p.parts.length with
    | zero => simp [hdirectory, hmake, hnone]
    | succ depth => simp [hmake, hnone]
  · unfold makeDirectories makeDirectories.go withDirectory
    cases p.parts.length with
    | zero => simp [hdirectory, hsome]
    | succ depth => simp [hmake, hdirectory, hsome]

/-! ## Files -/

theorem has_of_located
    {t : FileTree} {p : Path} {place : Place} (hlocate : t.locate p = .ok place) :
    t.has p = .ok (t.at? place).isSome := by
  simp [has, hlocate]

theorem read_of_located
    {t : FileTree} {p : Path} {place : Place} {content : Content} {stamp : Nat}
    (hlocate : t.locate p = .ok place) (hfile : t.at? place = some (.file content stamp)) :
    t.read p = .ok (content, stamp) := by
  simp [read, hlocate, hfile, bind, Except.bind, pure, Except.pure]

theorem write_of_located
    {t : FileTree} {p : Path} {place : Place} (hlocate : t.locate p = .ok place)
    (hplace : t.at? place ≠ some .directory) (content : Content) (stamp : Nat) :
    t.write p content stamp = .ok (t.put place (.file content stamp)) := by
  simp [write, hlocate, bind, Except.bind, pure, Except.pure]

theorem remove_of_located
    {t : FileTree} {p : Path} {place : Place} {content : Content} {stamp : Nat}
    (hlocate : t.locate p = .ok place) (hfile : t.at? place = some (.file content stamp)) :
    t.remove p = .ok (t.erase place) := by
  simp [remove, hlocate, hfile, bind, Except.bind, pure, Except.pure]

/-! ## What an operation on a file has found -/

theorem write_inv
    {t u : FileTree} {p : Path} {content : Content} {stamp : Nat}
    (h : t.write p content stamp = .ok u) :
    ∃ place, t.locate p = .ok place ∧ t.at? place ≠ some .directory ∧
      u = t.put place (.file content stamp) := by
  cases hlocate : t.locate p with
  | error e => simp [write, hlocate, bind, Except.bind] at h
  | ok place =>
      by_cases hplace : t.at? place = some .directory
      · simp [write, hlocate, hplace, bind, Except.bind] at h
      · rw [write_of_located hlocate hplace] at h
        exact ⟨place, rfl, hplace, (Except.ok.inj h).symm⟩

theorem remove_inv
    {t u : FileTree} {p : Path} (h : t.remove p = .ok u) :
    ∃ place content stamp, t.locate p = .ok place ∧ t.at? place = some (.file content stamp) ∧
      u = t.erase place := by
  cases hlocate : t.locate p with
  | error e => simp [remove, hlocate, bind, Except.bind] at h
  | ok place =>
      cases hentry : t.at? place with
      | none => simp [remove, hlocate, hentry, bind, Except.bind] at h
      | some entry =>
          cases entry with
          | directory => simp [remove, hlocate, hentry, bind, Except.bind] at h
          | file content stamp =>
              rw [remove_of_located hlocate hentry] at h
              exact ⟨place, content, stamp, rfl, hentry, (Except.ok.inj h).symm⟩

theorem read_inv
    {t : FileTree} {p : Path} {content : Content} {stamp : Nat}
    (h : t.read p = .ok (content, stamp)) :
    ∃ place, t.locate p = .ok place ∧ t.at? place = some (.file content stamp) := by
  cases hlocate : t.locate p with
  | error e => simp [read, hlocate, bind, Except.bind] at h
  | ok place =>
      cases hentry : t.at? place with
      | none => simp [read, hlocate, hentry, bind, Except.bind] at h
      | some entry =>
          cases entry with
          | directory => simp [read, hlocate, hentry, bind, Except.bind] at h
          | file other time =>
              rw [read_of_located hlocate hentry] at h
              obtain ⟨rfl, rfl⟩ := Prod.mk.inj (Except.ok.inj h)
              exact ⟨place, rfl, hentry⟩

theorem has_of_read
    {t : FileTree} {p : Path} {found : Content × Nat} (h : t.read p = .ok found) :
    t.has p = .ok true := by
  obtain ⟨place, hlocate, hfile⟩ := read_inv h
  rw [has_of_located hlocate, hfile]
  rfl

end Arranger.FileTree
