import Arranger.Proofs.Library.Store
import Mathlib.Data.Set.Function

/-!
# The library behaves as the store

The working copies of a workspace are those of the store, and the files in its directory of
arrangements are the documents of the saved copies, in the order of their last saves.  Every request
keeps this, and then both answer alike.
-/

namespace Arranger.Library

/-! ## Files of saved copies -/

def Saved.entry (place : Place) (copy : Saved) : Place × Entry :=
  (fileOf place copy.name, .file (.text (Yaml.write copy.copy.datum)) copy.time)

/-- A workspace whose names of arrangements have distinct files mirrors a store. -/
structure Mirrors (names : Set String) (directory : Path) (place : Place) (s : Store)
    (w : Workspace) : Prop where
  home : IsHome w place
  directory : w.arrangements = directory
  working : ∀ name : String, w.workingCopy? name = s.working name
  keyed : w.IsKeyed
  files : w.files.entriesIn place = s.saved.map (Saved.entry place)
  savedKeyed : ∀ copy ∈ s.saved, copy.copy.name = .text copy.name
  savedNames : ∀ copy ∈ s.saved, copy.name ∈ names
  ordered : s.saved.Pairwise fun x y => x.time < y.time
  past : ∀ copy ∈ s.saved, copy.time ≤ s.time
  stamp : w.stamp = s.time

variable {names : Set String} {directory : Path} {place : Place} {s : Store} {w : Workspace}
  {name : String}

theorem lookup_entries
    (hinj : Set.InjOn fileName names) {saved : List Saved}
    (hsaved : ∀ copy ∈ saved, copy.name ∈ names) (hname : name ∈ names) :
    (saved.map (Saved.entry place)).lookup (fileOf place name) =
      (saved.find? (·.name = name)).map fun copy => (copy.entry place).2 := by
  induction saved with
  | nil => rfl
  | cons copy rest ih =>
      have hrest := ih fun x hx => hsaved x (by simp [hx])
      by_cases heq : copy.name = name
      · simp [Saved.entry, heq]
      · have hne : fileOf place name ≠ fileOf place copy.name := by
          intro h
          exact heq (hinj hname (hsaved copy (by simp)) (fileOf_inj.1 h)).symm
        have hbeq : (fileOf place name == fileOf place copy.name) = false :=
          beq_eq_false_iff_ne.2 hne
        simp only [List.map_cons, List.lookup_cons, Saved.entry, hbeq, List.find?_cons, heq,
          decide_false]
        exact hrest

theorem Mirrors.at?_fileOf
    (h : Mirrors names directory place s w) (hinj : Set.InjOn fileName names) (hname : name ∈ names) :
    w.files.at? (fileOf place name) = (s.saved? name).map fun copy => (copy.entry place).2 := by
  have hlookup := FileTree.at?_append_eq_lookup w.files place (fileName name)
  rw [h.files] at hlookup
  rw [fileOf, hlookup]
  exact lookup_entries hinj h.savedNames hname

theorem Mirrors.at?_fileOf_ne_directory
    (h : Mirrors names directory place s w) (hinj : Set.InjOn fileName names) (hname : name ∈ names) :
    w.files.at? (fileOf place name) ≠ some .directory := by
  rw [h.at?_fileOf hinj hname]
  cases s.saved? name with
  | none => simp
  | some copy => simp [Saved.entry]

theorem filter_entries
    (hinj : Set.InjOn fileName names) {saved : List Saved}
    (hsaved : ∀ copy ∈ saved, copy.name ∈ names) (hname : name ∈ names) :
    (saved.map (Saved.entry place)).filter (·.1 != fileOf place name) =
      (saved.filter (·.name != name)).map (Saved.entry place) := by
  rw [List.filter_map]
  congr 1
  apply List.filter_congr
  intro copy hcopy
  by_cases heq : copy.name = name
  · simp [Saved.entry, heq]
  · have hne : fileOf place copy.name ≠ fileOf place name := by
      intro h
      exact heq (hinj (hsaved copy hcopy) hname (fileOf_inj.1 h))
    simp [Saved.entry, heq, bne_iff_ne.2 hne]

theorem saved?_mem {copy : Saved} (h : s.saved? name = some copy) :
    copy ∈ s.saved ∧ copy.name = name := by
  refine ⟨List.mem_of_find?_eq_some h, ?_⟩
  simpa using List.find?_some h

/-! ## Steps of both -/

theorem Mirrors.keep
    (h : Mirrors names directory place s w) {a : Arrangement} (ha : a.name = .text name) :
    Mirrors names directory place (s.keep name a) (w.hold a) where
  home := ⟨h.home.located, h.home.isFree⟩
  directory := h.directory
  working := by
    intro other
    rw [Workspace.workingCopy?_hold_eq, h.working, ha]
    simp only [Store.keep, Function.update_apply, Label.text.injEq]
  keyed := h.keyed.hold a
  files := h.files
  savedKeyed := h.savedKeyed
  savedNames := h.savedNames
  ordered := h.ordered
  past := h.past
  stamp := h.stamp

theorem Mirrors.name_of_fetch
    (h : Mirrors names directory place s w) {a : Arrangement}
    (hfetch : (s.fetch name).1 = some a) : a.name = .text name := by
  cases hheld : s.working name with
  | some b =>
      have heq : b = a := by simpa [Store.fetch, hheld] using hfetch
      rw [← heq]
      exact h.keyed name b (by rw [h.working, hheld])
  | none =>
      cases hsaved : s.saved? name with
      | none => simp [Store.fetch, hheld, hsaved] at hfetch
      | some copy =>
          have heq : copy.copy = a := by simpa [Store.fetch, hheld, hsaved] using hfetch
          obtain ⟨hmem, hnamed⟩ := saved?_mem hsaved
          rw [← heq, h.savedKeyed copy hmem, hnamed]

theorem Mirrors.get?
    (h : Mirrors names directory place s w) (hinj : Set.InjOn fileName names)
    (hname : name ∈ names) (hlegal : IsLegal name) :
    ∃ v, Library.get? name w = (v, .value (s.fetch name).1) ∧
      Mirrors names directory place (s.fetch name).2 v := by
  have hfile := h.at?_fileOf hinj hname
  cases hheld : s.working name with
  | some a =>
      have hcopy : w.workingCopy? name = some a := by rw [h.working, hheld]
      refine ⟨w, ?_, ?_⟩
      · rw [get?_of_held hcopy]
        simp [Store.fetch, hheld]
      · simpa [Store.fetch, hheld] using h
  | none =>
      have hcopy : w.workingCopy? name = none := by rw [h.working, hheld]
      cases hsaved : s.saved? name with
      | none =>
          rw [hsaved] at hfile
          refine ⟨w, ?_, ?_⟩
          · rw [get?_of_absent h.home hlegal hcopy hfile]
            simp [Store.fetch, hheld, hsaved]
          · simpa [Store.fetch, hheld, hsaved] using h
      | some copy =>
          rw [hsaved] at hfile
          obtain ⟨hmem, hnamed⟩ := saved?_mem hsaved
          have hdocument := fromDocument_write copy.copy (pathOf w name)
          have hget := get?_of_filed h.home hlegal hcopy hfile
          rw [hdocument] at hget
          refine ⟨w.hold copy.copy, ?_, ?_⟩
          · rw [hget]
            simp [Store.fetch, hheld, hsaved]
          · have hkept := h.keep ((h.savedKeyed copy hmem).trans (congrArg _ hnamed))
            simpa [Store.fetch, hheld, hsaved] using hkept

theorem forall_saved_put
    {p : Saved → Prop} {new : Saved} (hsaved : ∀ copy ∈ s.saved, p copy) (hnew : p new) :
    ∀ copy ∈ (s.put new).saved, p copy := by
  intro copy hcopy
  rcases List.mem_append.1 hcopy with hother | hmem
  · exact hsaved copy (List.mem_of_mem_filter hother)
  · rwa [List.mem_singleton.1 hmem]

theorem forall_saved_drop {p : Saved → Prop} (hsaved : ∀ copy ∈ s.saved, p copy) :
    ∀ copy ∈ (s.drop name).saved, p copy :=
  fun copy hcopy => hsaved copy (List.mem_of_mem_filter hcopy)

/-- The directory of a saved file is there, as it is made if it was not. -/
theorem Mirrors.isHome_savedFiles
    (h : Mirrors names directory place s w) (hinj : Set.InjOn fileName names)
    (hname : name ∈ names) (a : Arrangement) :
    IsHome ({ w with files := savedFiles w place name a }.hold a) place := by
  have hfree : (w.files.withDirectory place).at? (fileOf place name) ≠ some .directory := by
    rw [FileTree.at?_withDirectory_of_ne w.files (home_ne_fileOf place name)]
    exact h.at?_fileOf_ne_directory hinj hname
  have hkeep : w.files.KeepsDirectories (savedFiles w place name a) :=
    (FileTree.keepsDirectories_withDirectory w.files place).trans
      (FileTree.keepsDirectories_put_file hfree _)
  refine ⟨hkeep.locate h.home.located, Or.inl ?_⟩
  change (savedFiles w place name a).at? place = some .directory
  rw [savedFiles, FileTree.at?_put_of_ne _ (home_ne_fileOf place name).symm]
  exact FileTree.at?_withDirectory_self h.home.free

theorem Mirrors.entriesIn_savedFiles
    (h : Mirrors names directory place s w) (hinj : Set.InjOn fileName names)
    (hname : name ∈ names) (a : Arrangement) :
    (savedFiles w place name a).entriesIn place =
      (s.put ⟨name, a, s.time⟩).saved.map (Saved.entry place) := by
  have hfilter : (s.saved.map (Saved.entry place)).filter (·.1 != fileOf place name) =
      (s.saved.filter (·.name != name)).map (Saved.entry place) :=
    filter_entries hinj h.savedNames hname
  rw [fileOf] at hfilter
  rw [savedFiles, fileOf, FileTree.entriesIn_put, FileTree.entriesIn_withDirectory, h.files, hfilter,
    h.stamp]
  simp [Store.put, Store.others, Saved.entry, fileOf]

theorem Mirrors.put
    (h : Mirrors names directory place s w) (hinj : Set.InjOn fileName names)
    (hpast : ∀ copy ∈ s.saved, copy.time < s.time) (hname : name ∈ names) {a : Arrangement}
    (ha : a.name = .text name) (hheld : s.working name = some a) :
    Mirrors names directory place (s.put ⟨name, a, s.time⟩)
      ({ w with files := savedFiles w place name a }.hold a) where
  home := h.isHome_savedFiles hinj hname a
  directory := h.directory
  working := by
    intro other
    rw [Workspace.workingCopy?_hold_eq, ha]
    split
    · next heq => rw [Label.text.inj heq, Store.put, hheld]
    · exact h.working other
  keyed := h.keyed.hold a
  files := h.entriesIn_savedFiles hinj hname a
  savedKeyed := forall_saved_put h.savedKeyed ha
  savedNames := forall_saved_put h.savedNames hname
  ordered := by
    -- the new copy is the last one, as every other one was saved before this request
    refine List.pairwise_append.2 ⟨h.ordered.sublist List.filter_sublist, by simp, ?_⟩
    intro copy hcopy new hnew
    rw [List.mem_singleton.1 hnew]
    exact hpast copy (List.mem_of_mem_filter hcopy)
  past := forall_saved_put h.past le_rfl
  stamp := h.stamp

/-- Clearing a name on both sides, when the files go on without that of the name. -/
theorem Mirrors.dropped
    (h : Mirrors names directory place s w) (hinj : Set.InjOn fileName names) (hname : name ∈ names)
    {files : FileTree} (hhome : IsHome { w with files := files } place)
    (hentries : files.entriesIn place =
      (w.files.entriesIn place).filter (·.1 != fileOf place name)) :
    Mirrors names directory place (s.drop name) { w.dropCopy name with files := files } where
  home := ⟨hhome.located, hhome.isFree⟩
  directory := h.directory
  working := by
    intro other
    have hcopy : (w.dropCopy name).workingCopy? other = (s.drop name).working other := by
      rw [Workspace.workingCopy?_dropCopy, h.working]
      simp only [Store.drop, Function.update_apply, Label.text.injEq]
    exact hcopy
  keyed := h.keyed.dropCopy name
  files := by
    rw [h.files] at hentries
    exact hentries.trans (filter_entries hinj h.savedNames hname)
  savedKeyed := forall_saved_drop h.savedKeyed
  savedNames := forall_saved_drop h.savedNames
  ordered := h.ordered.sublist List.filter_sublist
  past := forall_saved_drop h.past
  stamp := h.stamp

/-- Deleting a name on both sides, with the file if there is one. -/
theorem Mirrors.drop
    (h : Mirrors names directory place s w) (hinj : Set.InjOn fileName names)
    (hname : name ∈ names) (hlegal : IsLegal name) :
    ∃ v, Library.delete name w =
        (v, .value ((s.working name).isSome || (s.saved? name).isSome)) ∧
      Mirrors names directory place (s.drop name) v := by
  have hfile := h.at?_fileOf hinj hname
  cases hsaved : s.saved? name with
  | none =>
      rw [hsaved] at hfile
      have hall : w.files.entriesIn place =
          (w.files.entriesIn place).filter (·.1 != fileOf place name) := by
        symm
        rw [List.filter_eq_self]
        intro entry hentry
        rw [fileOf, FileTree.at?_append_eq_lookup] at hfile
        have hbeq := List.lookup_eq_none_iff.1 hfile entry hentry
        rw [bne_iff_ne]
        intro heq
        simp [heq, fileOf] at hbeq
      refine ⟨w.dropCopy name, ?_, h.dropped hinj hname h.home hall⟩
      rw [delete_of_absent h.home hlegal hfile, h.working]
      simp
  | some copy =>
      rw [hsaved] at hfile
      have hkeep : w.files.KeepsDirectories (w.files.erase (fileOf place name)) :=
        FileTree.keepsDirectories_erase (by rw [hfile]; simp [Saved.entry])
      have hhome : IsHome { w with files := w.files.erase (fileOf place name) } place := by
        refine ⟨hkeep.locate h.home.located, ?_⟩
        rcases h.home.free with hnone | hdirectory
        · rw [h.home.at?_fileOf_of_absent hnone] at hfile
          simp at hfile
        · exact Or.inl (hkeep place hdirectory)
      refine ⟨{ w.dropCopy name with files := w.files.erase (fileOf place name) }, ?_,
        h.dropped hinj hname hhome (FileTree.entriesIn_erase w.files place (fileName name))⟩
      rw [delete_of_filed h.home hlegal hfile]
      simp

/-! ## Listing -/

theorem lengthOf_list
    {fields : List (Datum × Datum)} {key : String} {items : List Datum}
    (hlookup : Datum.lookup fields key = some (.list items)) :
    lengthOf fields key = .ok items.length := by
  simp [lengthOf, hlookup, Datum.length, Except.mapError]

theorem listing_datum (fileName : String) (stamp : Nat) (a : Arrangement) :
    listing fileName stamp a.entries =
      .ok ⟨.ofLabel a.name, a.clips.length, a.tracks.length, stamp⟩ := by
  have hclips : Datum.lookup a.entries "clips" = some (.list (a.clips.map Clip.datum)) := by
    simp [Arrangement.entries]
  have htracks : Datum.lookup a.entries "tracks" = some (.list (a.tracks.map Track.datum)) := by
    simp [Arrangement.entries]
  unfold listing
  rw [lengthOf_list hclips, lengthOf_list htracks]
  simp [Arrangement.entries, bind, Except.bind, pure, Except.pure]

theorem listFile_of_read
    {files : FileTree} {directory : Path} {content : Content} {stamp : Nat}
    {d : Datum} {fields : List (Datum × Datum)}
    (hread : files.read (directory.join name) = .ok (content, stamp))
    (hdocument : readDocument content = .ok d) (hview : d.view = .map fields) :
    Library.listFile files directory name = .of (some <$> listing name stamp fields) := by
  simp only [Library.listFile, hread, hdocument, hview]

theorem Mirrors.listFile
    (h : Mirrors names directory place s w) (hinj : Set.InjOn fileName names)
    (hlegal : ∀ name ∈ names, IsLegal name) {copy : Saved}
    (hcopy : copy ∈ s.saved) :
    Library.listFile w.files w.arrangements (fileName copy.name) = .value (some copy.listing) := by
  have hname := h.savedNames copy hcopy
  have hfind : s.saved? copy.name = some copy := by
    have hsome : (s.saved? copy.name).isSome := by
      unfold Store.saved?
      rw [List.find?_isSome]
      exact ⟨copy, hcopy, by simp⟩
    obtain ⟨found, hfound⟩ := Option.isSome_iff_exists.1 hsome
    obtain ⟨hmem, hnamed⟩ := saved?_mem hfound
    rw [hfound, List.inj_on_of_nodup_map s.distinct hmem hcopy hnamed]
  have hfile := h.at?_fileOf hinj hname
  rw [hfind] at hfile
  have hlocate := h.home.locate_pathOf_of_file (hlegal _ hname) hfile
  have hreadFile := FileTree.read_of_located hlocate hfile
  have hdocument : readDocument (.text (Yaml.write copy.copy.datum)) = .ok (.map copy.copy.entries) :=
    readDocument_write copy.copy
  have hlisting := listing_datum (fileName copy.name) copy.time copy.copy
  rw [h.savedKeyed copy hcopy] at hlisting
  rw [listFile_of_read hreadFile hdocument rfl, hlisting]
  rfl

theorem mergeSort_eq_reverse
    {listings : List Listing} (h : listings.Pairwise fun x y => x.stamp < y.stamp) :
    (listings.mergeSort fun x y => y.stamp ≤ x.stamp) = listings.reverse := by
  have hsorted : (listings.mergeSort fun x y => y.stamp ≤ x.stamp).Pairwise
      fun x y => decide (y.stamp ≤ x.stamp) = true :=
    List.pairwise_mergeSort (fun x y z hxy hyz => by simp at hxy hyz ⊢; omega)
      (fun x y => by simp; omega) listings
  have hreversed : listings.reverse.Pairwise fun x y => decide (y.stamp ≤ x.stamp) = true := by
    rw [List.pairwise_reverse]
    exact h.imp fun hlt => decide_eq_true (Nat.le_of_lt hlt)
  have hperm : (listings.mergeSort fun x y => y.stamp ≤ x.stamp).Perm listings.reverse :=
    (List.mergeSort_perm _ _).trans (List.reverse_perm _).symm
  refine hperm.eq_of_pairwise ?_ hsorted hreversed
  -- two listings of the same time are the same
  intro x y hx hy hxy hyx
  have hxmem : x ∈ listings := List.mem_mergeSort.1 hx
  have hymem : y ∈ listings := List.mem_reverse.1 hy
  have hstamp : x.stamp = y.stamp := by
    simp only [decide_eq_true_eq] at hxy hyx
    omega
  have hnodup : (listings.map Listing.stamp).Nodup :=
    List.pairwise_map.2 (h.imp Nat.ne_of_lt)
  exact List.inj_on_of_nodup_map hnodup hxmem hymem hstamp

theorem listFiles_value
    {files : FileTree} {directory : Path} {saved : List Saved}
    (hfile : ∀ copy ∈ saved,
      Library.listFile files directory (fileName copy.name) = .value (some copy.listing)) :
    listFiles files directory (saved.map fun copy => fileName copy.name) =
      .value (saved.map Saved.listing) := by
  induction saved with
  | nil => rfl
  | cons copy rest ih =>
      have hrest := ih fun x hx => hfile x (by simp [hx])
      have hcopy := hfile copy (by simp)
      simp only [List.map_cons, listFiles]
      rw [hcopy, Outcome.value_andThen, hrest, Outcome.value_andThen]
      rfl

theorem Mirrors.list
    (h : Mirrors names directory place s w) (hinj : Set.InjOn fileName names)
    (hlegal : ∀ name ∈ names, IsLegal name) :
    Library.list w = .value (s.saved.reverse.map Saved.listing) := by
  have hnames : arrangementFiles w.files w.arrangements =
      s.saved.map fun copy => fileName copy.name := by
    unfold arrangementFiles
    rw [FileTree.namesIn_eq h.home.located, h.files]
    induction s.saved with
    | nil => rfl
    | cons copy rest ih =>
        simp only [List.map_cons, List.filterMap_cons, Saved.entry, fileOf,
          List.getLast?_append, List.getLast?_singleton, Option.some_or, List.filter_cons,
          isSuffixOf_fileName, if_true]
        congr 1
  have hlist := listFiles_value fun copy hcopy => h.listFile hinj hlegal hcopy
  have hordered : (s.saved.map Saved.listing).Pairwise fun x y => x.stamp < y.stamp :=
    List.pairwise_map.2 h.ordered
  unfold Library.list
  rw [hnames, hlist, Outcome.value_andThen, mergeSort_eq_reverse hordered, List.map_reverse]

/-! ## Sessions -/

theorem Mirrors.tick (h : Mirrors names directory place s w) :
    Mirrors names directory place { s with time := s.time + 1 } { w with stamp := w.stamp + 1 } where
  home := ⟨h.home.located, h.home.isFree⟩
  directory := h.directory
  working := h.working
  keyed := h.keyed
  files := h.files
  savedKeyed := h.savedKeyed
  savedNames := h.savedNames
  ordered := h.ordered
  past := fun copy hcopy => (h.past copy hcopy).trans (Nat.le_succ _)
  stamp := congrArg (· + 1) h.stamp

theorem Mirrors.forget (h : Mirrors names directory place s w) :
    Mirrors names directory place { s with working := fun _ => none } (Session.forgetCopies w) where
  home := ⟨h.home.located, h.home.isFree⟩
  directory := h.directory
  working := fun _ => rfl
  keyed := by
    intro name a ha
    simp [Workspace.workingCopy?, Session.forgetCopies] at ha
  files := h.files
  savedKeyed := h.savedKeyed
  savedNames := h.savedNames
  ordered := h.ordered
  past := h.past
  stamp := h.stamp

/-- Both find the arrangement of a name, or both miss it. -/
theorem Mirrors.require
    (h : Mirrors names directory place s w) (hinj : Set.InjOn fileName names)
    (hname : name ∈ names) (hlegal : IsLegal name) :
    (∃ v t, s.fetch name = (none, t) ∧
      Library.require name w = (v, .fail (.missing .arrangement name)) ∧
      Mirrors names directory place t v) ∨
    (∃ a v t, s.fetch name = (some a, t) ∧ Library.require name w = (v, .value a) ∧
      a.name = .text name ∧ t.working name = some a ∧ t.saved = s.saved ∧ t.time = s.time ∧
      Mirrors names directory place t v) := by
  obtain ⟨v, hget, hv⟩ := h.get? hinj hname hlegal
  cases hfetch : (s.fetch name).1 with
  | none =>
      rw [hfetch] at hget
      exact Or.inl ⟨v, (s.fetch name).2, Prod.ext hfetch rfl, require_of_none hget, hv⟩
  | some a =>
      rw [hfetch] at hget
      exact Or.inr ⟨a, v, (s.fetch name).2, Prod.ext hfetch rfl, require_of_some hget,
        h.name_of_fetch hfetch, Store.working_of_fetch hfetch, s.fetch_saved name,
        s.fetch_time name, hv⟩

/-- What a request must do on both sides: the replies are alike, and the workspace mirrors the store
again. -/
def AnswersAlike (names : Set String) (directory : Path) (place : Place) (s : Store) (w : Workspace)
    (r : Request) : Prop :=
  (r.action w).2 = .of (s.answer directory r).2 ∧
    Mirrors names directory place (s.answer directory r).1 (r.action w).1

theorem Mirrors.edit
    (h : Mirrors names directory place s w) (hinj : Set.InjOn fileName names) (hname : name ∈ names)
    (hlegal : IsLegal name) (e : Edit) :
    AnswersAlike names directory place s w (.edit name e) := by
  simp only [AnswersAlike, Request.action, Edit.action_eq, Store.answer, Store.withCopy]
  rcases h.require hinj hname hlegal with
    ⟨v, t, hfetch, hrequire, hv⟩ | ⟨a, v, t, hfetch, hrequire, ha, -, -, -, hv⟩
  · rw [hfetch, Action.map_of_fail (edit_of_fail hrequire e.result)]
    exact ⟨rfl, hv⟩
  · rw [hfetch]
    cases hresult : e.result a with
    | error fault =>
        rw [Action.map_of_fail (edit_of_error hrequire hresult)]
        simp only [hresult]
        exact ⟨rfl, hv⟩
    | ok b =>
        rw [Action.map_of_value (edit_of_ok hrequire hresult)]
        simp only [hresult]
        exact ⟨rfl, hv.keep ((Edit.name_of_result hresult).trans ha)⟩

theorem Mirrors.save
    (h : Mirrors names directory place s w) (hinj : Set.InjOn fileName names) (hname : name ∈ names)
    (hlegal : IsLegal name) (hpast : ∀ copy ∈ s.saved, copy.time < s.time) :
    AnswersAlike names directory place s w (.save name) := by
  simp only [AnswersAlike, Request.action, Store.answer, Store.withCopy]
  rcases h.require hinj hname hlegal with
    ⟨v, t, hfetch, hrequire, hv⟩ | ⟨a, v, t, hfetch, hrequire, ha, hheld, hsaved, htime, hv⟩
  · rw [hfetch, Action.bind_of_fail hrequire]
    exact ⟨rfl, hv⟩
  · have hsave := save_eq hv.home ha hlegal (hv.at?_fileOf_ne_directory hinj hname)
    have hpath : pathOf v name = directory.join (fileName name) := by
      rw [pathOf, hv.directory]
    rw [hfetch, Action.bind_of_value hrequire, Action.bind_of_value hsave, hpath]
    refine ⟨rfl, hv.put hinj ?_ hname ha hheld⟩
    rw [hsaved, htime]
    exact hpast

theorem Mirrors.duplicate
    (h : Mirrors names directory place s w) (hinj : Set.InjOn fileName names) (hname : name ∈ names)
    (hlegal : IsLegal name) (newName : String) :
    AnswersAlike names directory place s w (.duplicate name newName) := by
  simp only [AnswersAlike, Request.action, Store.answer, Store.withCopy]
  rcases h.require hinj hname hlegal with
    ⟨v, t, hfetch, hrequire, hv⟩ | ⟨a, v, t, hfetch, hrequire, ha, -, -, -, hv⟩
  · rw [hfetch, Action.map_of_fail (duplicate_of_fail hrequire _)]
    exact ⟨rfl, hv⟩
  · rw [hfetch, Action.map_of_value (duplicate_of_value hrequire newName)]
    exact ⟨rfl, hv.keep rfl⟩

/-- One request is answered alike, and the workspace mirrors the store again. -/
theorem Mirrors.answer
    (h : Mirrors names directory place s w) (hinj : Set.InjOn fileName names)
    (hlegal : ∀ name ∈ names, IsLegal name)
    (hpast : ∀ copy ∈ s.saved, copy.time < s.time) {r : Request} (hr : ∀ name ∈ r.names, name ∈ names) :
    AnswersAlike names directory place s w r := by
  cases r with
  | create name =>
      have hcreate := Action.map_of_value (create_eq name w) Reply.arrangement
      simp only [AnswersAlike, Request.action, hcreate, Store.answer]
      exact ⟨rfl, h.keep rfl⟩
  | get name =>
      have hname := hr name (by simp [Request.names])
      obtain ⟨v, hget, hv⟩ := h.get? hinj hname (hlegal name hname)
      have hfound := Action.map_of_value hget Reply.found
      simp only [AnswersAlike, Request.action, hfound, Store.answer]
      exact ⟨rfl, hv⟩
  | edit name e =>
      have hname := hr name (by simp [Request.names])
      exact h.edit hinj hname (hlegal name hname) e
  | save name =>
      have hname := hr name (by simp [Request.names])
      exact h.save hinj hname (hlegal name hname) hpast
  | delete name =>
      have hname := hr name (by simp [Request.names])
      obtain ⟨v, hdelete, hv⟩ := h.drop hinj hname (hlegal name hname)
      have hdeleted := Action.map_of_value hdelete Reply.deleted
      simp only [AnswersAlike, Request.action, hdeleted, Store.answer]
      exact ⟨rfl, hv⟩
  | duplicate name newName =>
      have hname := hr name (by simp [Request.names])
      exact h.duplicate hinj hname (hlegal name hname) newName
  | list =>
      have hlist := h.list hinj hlegal
      have hlisted : Action.ofOutcome (Library.list w) w =
          (w, .value (s.saved.reverse.map Saved.listing)) := by
        rw [hlist]
        rfl
      simp only [AnswersAlike, Request.action, Store.answer]
      rw [Action.bind_of_value Action.current_apply, Action.bind_of_value hlisted]
      exact ⟨rfl, h⟩
  | restart =>
      simp only [AnswersAlike, Request.action, Store.answer]
      rw [Action.bind_of_value (Action.change_apply _)]
      exact ⟨rfl, h.forget⟩

theorem Mirrors.serve
    (h : Mirrors names directory place s w) (hinj : Set.InjOn fileName names)
    (hlegal : ∀ name ∈ names, IsLegal name) {r : Request}
    (hr : ∀ name ∈ r.names, name ∈ names) :
    (serve w r).2 = .of (s.serve directory r).2 ∧
      Mirrors names directory place (s.serve directory r).1 (serve w r).1 :=
  h.tick.answer hinj hlegal (fun copy hcopy => Nat.lt_succ_of_le (h.past copy hcopy)) hr

theorem Mirrors.serveAll
    (h : Mirrors names directory place s w) (hinj : Set.InjOn fileName names)
    (hlegal : ∀ name ∈ names, IsLegal name) {requests : List Request}
    (hrequests : ∀ r ∈ requests, ∀ name ∈ r.names, name ∈ names) :
    (serveAll w requests).2 = (s.serveAll directory requests).2.map .of := by
  induction requests generalizing s w with
  | nil => rfl
  | cons r rest ih =>
      obtain ⟨hreply, hnext⟩ := h.serve hinj hlegal (hrequests r (by simp))
      have hrest := ih hnext fun q hq => hrequests q (by simp [hq])
      simp only [Library.serveAll, Store.serveAll, List.map_cons]
      rw [hreply, hrest]

/-- An empty directory of arrangements, without working copies. -/
structure IsFresh (w : Workspace) (place : Place) : Prop where
  home : IsHome w place
  noCopies : w.working = []
  noFiles : w.files.entriesIn place = []

theorem IsFresh.mirrors (h : IsFresh w place) (names : Set String) :
    Mirrors names w.arrangements place (.empty w.stamp) w where
  home := h.home
  directory := rfl
  working := by
    intro name
    simp [Workspace.workingCopy?, h.noCopies, Store.empty]
  keyed := by
    intro name a ha
    simp [Workspace.workingCopy?, h.noCopies] at ha
  files := h.noFiles
  savedKeyed := by simp [Store.empty]
  savedNames := by simp [Store.empty]
  ordered := List.Pairwise.nil
  past := by simp [Store.empty]
  stamp := rfl

/-- In every session that begins with an empty directory, the library answers as the store does, as
long as the names have files and no two of them the same one. -/
theorem serveAll_eq_store
    (hw : IsFresh w place) {requests : List Request}
    (hlegal : ∀ r ∈ requests, ∀ name ∈ r.names, IsLegal name)
    (hinj : Set.InjOn fileName {name | ∃ r ∈ requests, name ∈ r.names}) :
    (serveAll w requests).2 =
      ((Store.empty w.stamp).serveAll w.arrangements requests).2.map .of :=
  (hw.mirrors _).serveAll hinj (fun _ ⟨r, hr, hname⟩ => hlegal r hr _ hname)
    fun r hr _ hname => ⟨r, hr, hname⟩

theorem isFresh_start : IsFresh (Session.start "d").workspace ["d", "arrangements"] where
  home := by constructor <;> decide +kernel
  noCopies := rfl
  noFiles := by decide +kernel

/-- A session with two names, one of which is saved, found again after a restart and deleted. -/
def sampleRequests : List Request := [
    .create "a b", .edit "a b" (.addTrack "lead" ["x"]), .save "a b", .duplicate "a b" "c",
    .edit "c" (.removeTrack "lead"), .restart, .get "a b", .get "c", .list, .delete "a b",
    .save "a b"]

theorem serveAll_sampleRequests_eq_store :
    IsFresh (Session.start "d").workspace ["d", "arrangements"] ∧
      (∀ r ∈ sampleRequests, ∀ name ∈ r.names, IsLegal name) ∧
      Set.InjOn fileName {name | ∃ r ∈ sampleRequests, name ∈ r.names} ∧
      (serveAll (Session.start "d").workspace sampleRequests).2 =
        ((Store.empty 0).serveAll (Session.start "d").workspace.arrangements
          sampleRequests).2.map .of := by
  have hlegal : ∀ r ∈ sampleRequests, ∀ name ∈ r.names, IsLegal name := by decide +kernel
  have hnames : ∀ r ∈ sampleRequests, ∀ name ∈ r.names, name = "a b" ∨ name = "c" := by decide
  have hfiles : fileName "a b" ≠ fileName "c" := by decide +kernel
  have hinj : Set.InjOn fileName {name | ∃ r ∈ sampleRequests, name ∈ r.names} := by
    rintro m ⟨r, hr, hm⟩ n ⟨q, hq, hn⟩ heq
    rcases hnames r hr m hm with rfl | rfl
    · rcases hnames q hq n hn with rfl | rfl
      · rfl
      · exact absurd heq hfiles
    · rcases hnames q hq n hn with rfl | rfl
      · exact absurd heq.symm hfiles
      · rfl
  exact ⟨isFresh_start, hlegal, hinj, serveAll_eq_store isFresh_start hlegal hinj⟩

end Arranger.Library
