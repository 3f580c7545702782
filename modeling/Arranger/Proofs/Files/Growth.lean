import Arranger.Proofs.Files.Tree

/-!
# Trees that grow

In a tree every entry lies in a directory.  Writing and removing files keep this, and making
directories does nothing but add directories where nothing was.
-/

namespace Arranger.FileTree

/-- Every entry lies in a directory. -/
def IsTree (t : FileTree) : Prop :=
  ∀ place, (t.at? place).isSome → t.at? place.dropLast = some .directory

variable {t u v : FileTree} {p : Path} {place : Place}

theorem at?_nil (t : FileTree) : t.at? [] = some .directory := by
  simp [at?]

theorem at?_empty (hplace : place ≠ []) : empty.at? place = none := by
  simp [at?, empty, hplace]

theorem isTree_empty : empty.IsTree := by
  intro place hplace
  by_cases hnil : place = []
  · rw [hnil]
    exact at?_nil _
  · simp [at?_empty hnil] at hplace

theorem IsTree.dropLast
    (ht : t.IsTree) (hplace : t.at? place = some .directory) :
    t.at? place.dropLast = some .directory := by
  apply ht
  rw [hplace]
  rfl

theorem IsTree.put
    (ht : t.IsTree) (hparent : t.at? place.dropLast = some .directory) {entry : Entry}
    (hkeep : t.KeepsDirectories (t.put place entry)) : (t.put place entry).IsTree := by
  intro other hother
  by_cases heq : place = other
  · rw [← heq]
    exact hkeep _ hparent
  · rw [at?_put_of_ne t heq] at hother
    exact hkeep _ (ht other hother)

theorem IsTree.erase
    (ht : t.IsTree) (hplace : t.at? place ≠ some .directory) : (t.erase place).IsTree := by
  have hkeep := keepsDirectories_erase hplace
  intro other hother
  by_cases heq : place = other
  · have hne : place ≠ [] := by
      rintro rfl
      exact hplace (at?_nil t)
    rw [← heq, at?_erase_self t hne] at hother
    simp at hother
  · rw [at?_erase_of_ne t heq] at hother
    exact hkeep _ (ht other hother)

/-- Where nothing is, nothing lies in it. -/
theorem IsTree.entriesIn_eq_nil
    (ht : t.IsTree) (hplace : t.at? place = none) : t.entriesIn place = [] := by
  apply List.filter_eq_nil_iff.2
  rintro ⟨other, entry⟩ hmem hlies
  simp only [liesIn, Bool.and_eq_true, decide_eq_true_eq] at hlies
  obtain ⟨hlength, htake⟩ := hlies
  have hparent : other.dropLast = place := by
    rw [List.dropLast_eq_take, hlength]
    exact htake
  have hne : other ≠ [] := by
    rintro rfl
    simp at hlength
  have hsome : (t.at? other).isSome := by
    cases hlookup : t.entries.lookup other with
    | none => exact absurd rfl (bne_iff_ne.1 (List.lookup_eq_none_iff.1 hlookup _ hmem))
    | some found => simp [at?, hne, hlookup]
  have hdirectory := ht other hsome
  rw [hparent, hplace] at hdirectory
  simp at hdirectory

/-! ## Paths in trees -/

/-- What a path leads to lies in a directory. -/
theorem IsTree.walk_parent
    (ht : t.IsTree) {here : Place} {parts : List String}
    (hhere : t.at? here.dropLast = some .directory) (hwalk : t.walk here parts = .ok place) :
    t.at? place.dropLast = some .directory := by
  induction parts generalizing here with
  | nil =>
      rw [← Except.ok.inj hwalk]
      exact hhere
  | cons part rest ih =>
      rw [FileTree.walk] at hwalk
      cases hentry : t.at? here with
      | none => simp [hentry] at hwalk
      | some entry =>
          cases entry with
          | file content stamp => simp [hentry] at hwalk
          | directory =>
              simp only [hentry] at hwalk
              split at hwalk
              · exact ih (ht.dropLast hhere) hwalk
              · split at hwalk
                · simp at hwalk
                · apply ih _ hwalk
                  rw [List.dropLast_concat]
                  exact hentry

theorem IsTree.locate_parent
    (ht : t.IsTree) (hbase : t.at? p.base = some .directory) (hlocate : t.locate p = .ok place) :
    t.at? place.dropLast = some .directory :=
  ht.walk_parent (ht.dropLast hbase) (locate_eq_walk hlocate).2

/-! ## Growth -/

/-- One tree has all entries of the other one, and beyond them directories. -/
def Grows (t u : FileTree) : Prop :=
  ∀ place, u.at? place = t.at? place ∨ t.at? place = none ∧ u.at? place = some .directory

theorem Grows.refl (t : FileTree) : t.Grows t := fun _ => Or.inl rfl

theorem Grows.trans (htu : t.Grows u) (huv : u.Grows v) : t.Grows v := by
  intro place
  rcases htu place with hsame | ⟨hnone, hmade⟩
  · rw [← hsame]
    exact huv place
  · rcases huv place with hkept | ⟨habsent, -⟩
    · exact Or.inr ⟨hnone, hkept.trans hmade⟩
    · rw [hmade] at habsent
      simp at habsent

theorem Grows.keepsDirectories (h : t.Grows u) : t.KeepsDirectories u := by
  intro place hplace
  rcases h place with hsame | ⟨hnone, -⟩
  · exact hsame.trans hplace
  · rw [hplace] at hnone
    simp at hnone

theorem grows_put_directory (hplace : t.at? place = none) : t.Grows (t.put place .directory) := by
  intro other
  by_cases heq : place = other
  · subst heq
    have hne : place ≠ [] := by
      rintro rfl
      simp [at?_nil] at hplace
    exact Or.inr ⟨hplace, at?_put_self t hne _⟩
  · exact Or.inl (at?_put_of_ne t heq _)

theorem makeDirectory_inv
    (h : t.makeDirectory p = .ok u) :
    ∃ place, t.locate p = .ok place ∧ t.at? place = none ∧ u = t.put place .directory := by
  cases hlocate : t.locate p with
  | error e => simp [makeDirectory, hlocate, bind, Except.bind] at h
  | ok place =>
      rw [makeDirectory_of_located hlocate] at h
      split at h
      · next hnone => exact ⟨place, rfl, hnone, (Except.ok.inj h).symm⟩
      · simp at h

theorem grows_makeDirectory (h : t.makeDirectory p = .ok u) : t.Grows u := by
  obtain ⟨place, -, hnone, rfl⟩ := makeDirectory_inv h
  exact grows_put_directory hnone

theorem IsTree.makeDirectory
    (ht : t.IsTree) (hbase : t.at? p.base = some .directory) (h : t.makeDirectory p = .ok u) :
    u.IsTree := by
  have hgrows := grows_makeDirectory h
  obtain ⟨place, hlocate, -, rfl⟩ := makeDirectory_inv h
  exact ht.put (ht.locate_parent hbase hlocate) hgrows.keepsDirectories

theorem makeDirectories_go_induction
    {P : FileTree → Prop} (ht : P t)
    (hstep : ∀ {s v : FileTree} {q : Path}, q.base = p.base → P s → s.makeDirectory q = .ok v → P v)
    {depth : Nat} (h : makeDirectories.go t p depth = .ok u) : P u := by
  induction depth generalizing p u with
  | zero =>
      unfold makeDirectories.go at h
      split at h
      · rwa [← Except.ok.inj h]
      · exact hstep rfl ht h
  | succ depth ih =>
      unfold makeDirectories.go at h
      -- What is there already stays as it is, whatever the fault of making it was.
      have hthere : ∀ {s : FileTree} {e : FileError}, P s →
          (if s.isDirectory p then Except.ok s else Except.error e) = .ok u → P u := by
        intro s e hs heq
        split at heq
        · rwa [← Except.ok.inj heq]
        · simp at heq
      split at h
      · next hmake =>
        rw [Except.ok.inj h] at hmake
        exact hstep rfl ht hmake
      · cases hgo : makeDirectories.go t p.parent depth with
        | error e => simp [hgo, bind, Except.bind] at h
        | ok s =>
            have hs : P s := ih (p := p.parent) (fun hq => hstep hq) hgo
            simp only [hgo, bind, Except.bind] at h
            split at h
            · next hmake =>
              rw [Except.ok.inj h] at hmake
              exact hstep rfl hs hmake
            · exact hthere hs h
      · simp at h
      · exact hthere ht h

/-- What making one directory keeps, making directories keeps. -/
theorem makeDirectories_induction
    {P : FileTree → Prop} (ht : P t)
    (hstep : ∀ {s v : FileTree} {q : Path}, q.base = p.base → P s → s.makeDirectory q = .ok v → P v)
    (h : t.makeDirectories p = .ok u) : P u :=
  makeDirectories_go_induction ht hstep h

theorem grows_makeDirectories (h : t.makeDirectories p = .ok u) : t.Grows u :=
  makeDirectories_induction (.refl t) (fun _ hs hmake => hs.trans (grows_makeDirectory hmake)) h

theorem IsTree.makeDirectories
    (ht : t.IsTree) (hbase : t.at? p.base = some .directory)
    (h : t.makeDirectories p = .ok u) : u.IsTree ∧ t.Grows u := by
  refine makeDirectories_induction (P := fun s => s.IsTree ∧ t.Grows s) ⟨ht, .refl t⟩ ?_ h
  rintro s v q hq ⟨hs, hgrows⟩ hmake
  have hdirectory : s.at? q.base = some .directory := by
    rw [hq]
    exact hgrows.keepsDirectories _ hbase
  exact ⟨hs.makeDirectory hdirectory hmake, hgrows.trans (grows_makeDirectory hmake)⟩

/-! ## Files -/

theorem IsTree.write
    (ht : t.IsTree) (hbase : t.at? p.base = some .directory) {content : Content} {stamp : Nat}
    (h : t.write p content stamp = .ok u) : u.IsTree := by
  obtain ⟨place, hlocate, hplace, rfl⟩ := write_inv h
  exact ht.put (ht.locate_parent hbase hlocate) (keepsDirectories_put_file hplace _)

theorem keepsDirectories_write
    {content : Content} {stamp : Nat} (h : t.write p content stamp = .ok u) :
    t.KeepsDirectories u := by
  obtain ⟨place, -, hplace, rfl⟩ := write_inv h
  exact keepsDirectories_put_file hplace _

theorem read_of_write
    {content : Content} {stamp : Nat} (h : t.write p content stamp = .ok u) :
    u.read p = .ok (content, stamp) := by
  have hkeep := keepsDirectories_write h
  obtain ⟨place, hlocate, hplace, rfl⟩ := write_inv h
  have hne : place ≠ [] := by
    rintro rfl
    exact hplace (at?_nil t)
  exact read_of_located (hkeep.locate hlocate) (at?_put_self t hne _)

/-! ## The files of a tree -/

/-- The content and the stamp of the file at a place; a directory has none. -/
def file? (t : FileTree) (place : Place) : Option (Content × Nat) :=
  match t.at? place with
  | some (.file content stamp) => some (content, stamp)
  | _ => none

/-- Two trees have the same files.  Their directories may differ. -/
def SameFiles (t u : FileTree) : Prop := ∀ place, u.file? place = t.file? place

def SameFilesBut (target : Place) (t u : FileTree) : Prop :=
  ∀ place, place ≠ target → u.file? place = t.file? place

theorem SameFiles.refl (t : FileTree) : t.SameFiles t := fun _ => rfl

theorem SameFiles.but (h : t.SameFiles u) (target : Place) : SameFilesBut target t u :=
  fun place _ => h place

theorem SameFilesBut.trans
    {target : Place} (htu : SameFilesBut target t u) (huv : SameFilesBut target u v) :
    SameFilesBut target t v :=
  fun place hplace => (huv place hplace).trans (htu place hplace)

theorem Grows.sameFiles (h : t.Grows u) : t.SameFiles u := by
  intro place
  rcases h place with hsame | ⟨hnone, hmade⟩
  · simp only [file?, hsame]
  · simp only [file?, hnone, hmade]

theorem file?_of_at? {content : Content} {stamp : Nat}
    (h : t.at? place = some (.file content stamp)) : t.file? place = some (content, stamp) := by
  rw [file?, h]

theorem at?_of_file? {content : Content} {stamp : Nat}
    (h : t.file? place = some (content, stamp)) : t.at? place = some (.file content stamp) := by
  unfold file? at h
  split at h
  · next hfile =>
    obtain ⟨rfl, rfl⟩ := Prod.mk.inj (Option.some.inj h)
    exact hfile
  · simp at h

theorem sameFilesBut_of_write
    {content : Content} {stamp : Nat} (h : t.write p content stamp = .ok u) :
    ∃ target, u.locate p = .ok target ∧ u.file? target = some (content, stamp) ∧
      SameFilesBut target t u := by
  have hkeep := keepsDirectories_write h
  obtain ⟨target, hlocate, hplace, rfl⟩ := write_inv h
  have hne : target ≠ [] := by
    rintro rfl
    exact hplace (at?_nil t)
  refine ⟨target, hkeep.locate hlocate, file?_of_at? (at?_put_self t hne _), ?_⟩
  intro place hother
  rw [file?, file?, at?_put_of_ne t hother.symm]

end Arranger.FileTree
