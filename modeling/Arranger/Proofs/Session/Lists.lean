import Arranger.Proofs.Library.Listings
import Arranger.Proofs.Session.Invariant

/-!
# Lists in a session

A call for a list answers with an entry for every file that is accepted, unless a file makes the
whole list fail.  The name in an entry is asked for through the file of that name, which need not be
the file of the entry.
-/

namespace Arranger.Session

open Library (Accepts HoldsMap Spoils TitledAs entryOf? fileName filesOf get? list readFile)

variable {w : Workspace} {file : String} {a : Arrangement}

/-! ## Entries -/

theorem isSuccess_list_iff (s : State) (args : Arguments) :
    ((Step.call "sclang_list_arrangements" args).run s).2.IsSuccess ↔
      ∃ reply, (Tool.listArrangements args (tick s.workspace)).2.result = .ok reply := by
  constructor
  · intro h
    exact ⟨_, ok_of_isSuccess (x := Tool.listArrangements args) h⟩
  · rintro ⟨reply, hreply⟩
    obtain ⟨entries, rfl, -⟩ := Library.perm_of_listArrangements hreply
    exact ⟨_, value_of_ok (x := Tool.listArrangements args) hreply⟩

theorem exists_error_of_spoils
    {s : State} (hfile : file ∈ filesOf (tick s.workspace))
    (hspoils : Spoils (tick s.workspace) file) (args : Arguments) :
    ∃ fault, ((Step.call "sclang_list_arrangements" args).run s).2.value = Reply.error fault := by
  cases hresult : (Tool.listArrangements args (tick s.workspace)).2.result with
  | ok reply =>
      exact absurd hspoils (Library.exists_listArrangements_iff.1 ⟨reply, hresult⟩ file hfile)
  | error fault => exact ⟨fault, value_of_error (x := Tool.listArrangements args) hresult⟩

/-- An arrangement is saved, and beside its file there is a directory that is named like one. -/
def savedSteps : List Step :=
  [.call "sclang_create_arrangement" ⟨[(.text "name", .text "a")]⟩,
    .call "sclang_save_arrangement" ⟨[(.text "name", .text "a")]⟩,
    .place "arrangements/b.arrangement.yaml/c" ""]

def savedState : State := (run (start "d") savedSteps).1

/-- The workspace in which the next call runs. -/
def savedWorkspace : Workspace := tick savedState.workspace

theorem files_savedWorkspace :
    filesOf savedWorkspace = ["a.arrangement.yaml", "b.arrangement.yaml"] ∧
      readFile savedWorkspace "a.arrangement.yaml" =
        .ok (.text (Yaml.write (Arrangement.new "a").datum), 2) ∧
      (readFile savedWorkspace "b.arrangement.yaml").isOk = false := by
  decide +kernel

theorem mem_savedWorkspace : "a.arrangement.yaml" ∈ filesOf savedWorkspace := by
  rw [files_savedWorkspace.1]
  exact List.mem_cons_self

theorem accepts_savedWorkspace :
    Accepts savedWorkspace "a.arrangement.yaml" (.new "a") ∧
      ¬Spoils savedWorkspace "a.arrangement.yaml" :=
  Library.accepts_of_written files_savedWorkspace.2.1

theorem not_spoils_savedWorkspace :
    ∀ file ∈ filesOf savedWorkspace, ¬Spoils savedWorkspace file := by
  rw [files_savedWorkspace.1]
  intro file hfile
  rcases List.mem_pair.1 hfile with rfl | rfl
  · exact accepts_savedWorkspace.2
  · exact Library.not_spoils_of_unreadable files_savedWorkspace.2.2

/-- Beside the file of the arrangement there is one that has nothing for its clips. -/
def spoiledState : State :=
  (run savedState [.place "arrangements/d.arrangement.yaml" "clips: null\n"]).1

def spoiledWorkspace : Workspace := tick spoiledState.workspace

theorem files_spoiledWorkspace :
    filesOf spoiledWorkspace =
        ["a.arrangement.yaml", "b.arrangement.yaml", "d.arrangement.yaml"] ∧
      readFile spoiledWorkspace "a.arrangement.yaml" =
        .ok (.text (Yaml.write (Arrangement.new "a").datum), 2) ∧
      readFile spoiledWorkspace "d.arrangement.yaml" =
        .ok (.text (Yaml.write (.record [("clips", .null)])), 4) := by
  decide +kernel

theorem accepts_forgetCopies_iff : Accepts (forgetCopies w) file a ↔ Accepts w file a := by
  rw [Library.accepts_iff, Library.accepts_iff]
  rfl

/-- In a list that is made, every file that is accepted has an entry with as many clips and tracks
as its arrangement.  The name in it, if it is a text, gives what the file of that name is accepted
as.  This is the arrangement if the file is the one of the name, which it cannot be if its document
has no name. -/
theorem get?_of_listed
    {found : List Library.Listing} (hlist : (list w).result = .ok found)
    (hfile : file ∈ filesOf w) (haccepts : Accepts w file a) :
    ∃ l ∈ found, TitledAs w file a l.name ∧ l.clips = a.clips.length ∧
      l.tracks = a.tracks.length ∧ ∀ title, l.name = .text title →
        (∀ b, (get? title (forgetCopies w)).2.result = .ok (some b) ↔
          Accepts w (fileName title) b) ∧
        (fileName title = file →
          a.name = .text title ∧ (get? title (forgetCopies w)).2.result = .ok (some a)) := by
  obtain ⟨l, hl, htitled, hclips, htracks⟩ := haccepts.listed
  refine ⟨l, (Library.mem_list_iff hlist).2 ⟨file, hfile, hl⟩, htitled, hclips, htracks, ?_⟩
  intro title htitle
  have hget : ∀ b, (get? title (forgetCopies w)).2.result = .ok (some b) ↔
      Accepts w (fileName title) b := fun b =>
    (Library.result_get?_eq_some_iff (workingCopy?_forgetCopies w title)).trans
      accepts_forgetCopies_iff
  refine ⟨hget, fun hsame => ⟨?_, (hget a).2 (hsame ▸ haccepts)⟩⟩
  rw [htitle] at htitled
  rcases htitled.eq_or_eq_stem with hname | rfl
  · exact hname
  · exact absurd hsame (Library.fileName_stem_ne file)

theorem get?_of_listed_savedWorkspace :
    ∃ found, (list savedWorkspace).result = .ok found ∧
      ∃ l ∈ found, l.name = .text "a" ∧ l.clips = 0 ∧ l.tracks = 0 ∧
        (get? "a" (forgetCopies savedWorkspace)).2.result = .ok (some (.new "a")) := by
  obtain ⟨haccepts, hspoils⟩ := accepts_savedWorkspace
  obtain ⟨found, hlist⟩ := Library.exists_list_iff.2 fun file hfile =>
    let ⟨l, hl, _⟩ := Library.exists_told_of_not_spoils (not_spoils_savedWorkspace file hfile)
    ⟨l, hl⟩
  obtain ⟨l, hl, htitled, hclips, htracks, hget⟩ := get?_of_listed hlist mem_savedWorkspace haccepts
  have hname : l.name = .text "a" := by
    have hnamed : (Arrangement.new "a").name ≠ .text Arrangement.defaultName := by decide
    generalize l.name = d at htitled
    cases htitled with
    | label _ _ => rfl
    | bytes hmap hname hdecode hdecoded =>
        exact absurd (haccepts.spoils_iff.2 ⟨_, .bytes hmap hname hdecode hdecoded⟩) hspoils
    | unnamed _ _ hdefault => exact absurd hdefault hnamed
  have hfile : fileName "a" = "a.arrangement.yaml" := by decide +kernel
  exact ⟨found, hlist, l, hl, hname, hclips, htracks, ((hget "a" hname).2 hfile).2⟩

/-- There is one file, which has clips and no name. -/
def unnamedWorkspace : Workspace :=
  (run (start "d") [.place "arrangements/x.arrangement.yaml" "clips: []\n"]).1.workspace

theorem files_unnamedWorkspace :
    filesOf unnamedWorkspace = ["x.arrangement.yaml"] ∧
      readFile unnamedWorkspace "x.arrangement.yaml" =
        .ok (.text (Yaml.write (.record [("clips", .list [])])), 1) ∧
      (unnamedWorkspace.files.has
        (Library.pathOf unnamedWorkspace "x.arrangement")) = .ok false := by
  decide +kernel

theorem unnamedFile_is_listed_not_found :
    ∃ found, (list unnamedWorkspace).result = .ok found ∧
      ∃ a, Accepts unnamedWorkspace "x.arrangement.yaml" a ∧
        ∃ l ∈ found, l.name = .text "x.arrangement" ∧ l.clips = a.clips.length ∧
          (get? "x.arrangement" (forgetCopies unnamedWorkspace)).2.result = .ok none := by
  obtain ⟨hfiles, hread, hhas⟩ := files_unnamedWorkspace
  have hmap : HoldsMap unnamedWorkspace "x.arrangement.yaml" [(.text "clips", .list [])] :=
    ⟨_, _, _, hread, Library.readDocument_clips (Yaml.readsBack_emptyList 0).value, rfl⟩
  have haccepts : Accepts unnamedWorkspace "x.arrangement.yaml" ⟨"arrangement", [], []⟩ :=
    hmap.accepts rfl
  obtain ⟨l, hl, htitled, hclips, -⟩ := haccepts.listed
  obtain ⟨found, hlist⟩ : ∃ found, (list unnamedWorkspace).result = .ok found := by
    rw [Library.exists_list_iff, hfiles]
    intro file hfile
    obtain rfl := List.mem_singleton.1 hfile
    exact ⟨_, hl⟩
  have hmem : l ∈ found := by
    rw [Library.mem_list_iff hlist, hfiles]
    exact ⟨_, List.mem_cons_self, hl⟩
  have hname : l.name = .text "x.arrangement" := by
    have hstem : Library.stem "x.arrangement.yaml" = "x.arrangement" := by decide +kernel
    rw [htitled.eq_of_unnamed hmap rfl, hstem]
  refine ⟨found, hlist, _, haccepts, l, hmem, hname, hclips, ?_⟩
  rw [Library.get?_of_not_has (workingCopy?_forgetCopies unnamedWorkspace _) hhas]
  rfl

end Arranger.Session
