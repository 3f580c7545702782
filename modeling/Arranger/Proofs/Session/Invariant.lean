import Arranger.Proofs.Files.Growth
import Arranger.Proofs.Library.Outputs
import Arranger.Proofs.Workspace.Calls

/-!
# What holds throughout a session

Whatever the tools are called with, directories stay directories, working copies stay under their
own names, and the only files of arrangements that come about are written by saves.  So what the
tools keep of working copies and of files holds at all times of a session, if it held in the
beginning.
-/

namespace Arranger.Session

open Library (Asked Effect IsEnding IsHome IsLegal IsOutput IsRooted fileName fileOf fromDocument
  fromDocument_write locate_pathOf_inv pathOf)

/-! ## Files of a session -/

/-- The directory of arrangements of a session. -/
def home (d : String) : Place := [d, "arrangements"]

/-- Files with which a session can begin: they may hold anything, in the directory of arrangements
too. -/
structure IsOpen (d : String) (t : FileTree) : Prop where
  isTree : t.IsTree
  root : t.at? [d] = some .directory
  free : t.at? (home d) = none ∨ t.at? (home d) = some .directory

/-- A session that begins with files. -/
def opened (d : String) (t : FileTree) : State :=
  { start d with workspace := { (start d).workspace with files := t } }

/-- A file with this content is read as the arrangement. -/
def Holds (content : Content) (a : Arrangement) : Prop := ∀ p, fromDocument p content = .ok a

/-- What is to hold of every working copy, and of every file in the directory of arrangements. -/
structure Rule where
  copy : Arrangement → Prop
  file : String → Content → Prop

variable {d : String} {t u files : FileTree} {r : Rule} {w v : Workspace} {p : Path} {q : Place}
  {name : String} {a : Arrangement}

theorem holds_of_fromDocument
    {content : Content} (h : fromDocument p content = .ok a) : Holds content a := by
  intro other
  cases hdocument : Library.readDocument content with
  | error e => simp [fromDocument, hdocument, Except.mapError, bind, Except.bind] at h
  | ok document =>
      simp only [fromDocument, hdocument, Except.mapError, bind, Except.bind] at h ⊢
      exact h

theorem holds_written (a : Arrangement) : Holds (.text (Yaml.write a.datum)) a :=
  fun p => fromDocument_write a p

theorem Holds.unique {content : Content} {b : Arrangement} (ha : Holds content a)
    (hb : Holds content b) : a = b := by
  have hsame := (ha (Path.atRoot "" [])).symm.trans (hb (Path.atRoot "" []))
  exact Except.ok.inj hsame

/-- What the tools make of what obeys the rule obeys it too. -/
structure Rule.IsKept (r : Rule) : Prop where
  new : ∀ name, r.copy (.new name)
  rename : ∀ {a : Arrangement} (name : Label), r.copy a → r.copy { a with name }
  edit : ∀ {a b : Arrangement}, r.copy a → Edited a b → r.copy b
  read : ∀ {name : String} {content : Content} {a : Arrangement},
    r.file (fileName name) content → Holds content a → r.copy a
  save : ∀ {a : Arrangement} {name : String}, r.copy a → a.name = .text name →
    r.file (fileName name) (.text (Yaml.write a.datum))
  output : ∀ {part : String} (content : Content), IsEnding part → r.file part content

/-! ## Changes of the files -/

/-- Files that a session leaves, if it began with `t`. -/
structure Filing (d : String) (t : FileTree) (r : Rule) (files : FileTree) : Prop where
  isTree : files.IsTree
  since : t.KeepsDirectories files
  free : files.at? (home d) = none ∨ files.at? (home d) = some .directory
  obeyed : ∀ part content stamp,
    files.at? (home d ++ [part]) = some (.file content stamp) → r.file part content

theorem Filing.change
    (h : Filing d t r files) (hu : u.IsTree) (hkeep : files.KeepsDirectories u)
    (hfree : u.at? (home d) = files.at? (home d) ∨ u.at? (home d) = some .directory)
    (hobeyed : ∀ part content stamp, u.at? (home d ++ [part]) = some (.file content stamp) →
      u.at? (home d ++ [part]) = files.at? (home d ++ [part]) ∨ r.file part content) :
    Filing d t r u where
  isTree := hu
  since := h.since.trans hkeep
  free := by
    rcases hfree with hsame | hmade
    · rw [hsame]
      exact h.free
    · exact Or.inr hmade
  obeyed := by
    intro part content stamp hfile
    rcases hobeyed part content stamp hfile with hsame | hnew
    · exact h.obeyed part content stamp (hsame ▸ hfile)
    · exact hnew

theorem Filing.base
    (ht : IsOpen d t) (h : Filing d t r files) (hp : p.base = [] ∨ p.base = [d]) :
    files.at? p.base = some .directory := by
  rcases hp with hnil | hroot
  · rw [hnil]
    exact FileTree.at?_nil files
  · rw [hroot]
    exact h.since _ ht.root

theorem Filing.makeDirectories
    (ht : IsOpen d t) (h : Filing d t r files) (hp : p.base = [] ∨ p.base = [d])
    (hmake : files.makeDirectories p = .ok u) : Filing d t r u := by
  obtain ⟨hu, hgrows⟩ := h.isTree.makeDirectories (h.base ht hp) hmake
  apply h.change hu hgrows.keepsDirectories
  · rcases hgrows (home d) with hsame | ⟨-, hmade⟩
    · exact Or.inl hsame
    · exact Or.inr hmade
  · intro part content stamp hfile
    left
    rcases hgrows (home d ++ [part]) with hsame | ⟨-, hmade⟩
    · exact hsame
    · rw [hmade] at hfile
      simp at hfile

/-- An output is never in the place of the directory of arrangements. -/
theorem home_ne_of_isOutput
    (hp : IsOutput w p) (hlocate : files.locate p = .ok q) : q ≠ home d := by
  obtain ⟨parent, part, rfl, hending⟩ := hp.last_of_locate hlocate
  intro heq
  have hconcat : parent ++ [part] = [d] ++ ["arrangements"] := heq
  obtain ⟨-, hlast⟩ := List.append_inj' hconcat rfl
  rw [(List.cons.inj hlast).1] at hending
  exact absurd hending (by unfold Library.IsEnding; decide)

/-- Writing an output changes no file of an arrangement. -/
theorem Filing.writeOutput
    (ht : IsOpen d t) (hr : r.IsKept) (h : Filing d t r files)
    (hp : p.base = [] ∨ p.base = [d]) (houtput : IsOutput w p) {content : Content} {stamp : Nat}
    (hwrite : files.write p content stamp = .ok u) : Filing d t r u := by
  have hu := h.isTree.write (h.base ht hp) hwrite
  obtain ⟨q, hlocate, hfree, rfl⟩ := FileTree.write_inv hwrite
  apply h.change hu (FileTree.keepsDirectories_put_file hfree _)
  · exact Or.inl (FileTree.at?_put_of_ne _ (home_ne_of_isOutput houtput hlocate) _)
  · intro part written time hfile
    by_cases heq : q = home d ++ [part]
    · obtain ⟨parent, last, rfl, hending⟩ := houtput.last_of_locate hlocate
      obtain ⟨-, hlast⟩ := List.append_inj' heq rfl
      rw [(List.cons.inj hlast).1] at hending
      exact Or.inr (hr.output written hending)
    · exact Or.inl (FileTree.at?_put_of_ne _ heq _)

/-! ## Sessions -/

/-- What holds of the workspace of a session that began with `t`. -/
structure Sound (d : String) (t : FileTree) (r : Rule) (w : Workspace) : Prop where
  arrangements : w.arrangements = ⟨d, [d], ["arrangements"]⟩
  output : w.output = ⟨d, [d], ["output"]⟩
  filing : Filing d t r w.files
  keyed : w.IsKeyed
  copies : ∀ name a, w.workingCopy? name = some a → r.copy a

theorem Sound.located
    (ht : IsOpen d t) (h : Sound d t r w) :
    w.files.locate w.arrangements = .ok (home d) := by
  have hroot := h.filing.since _ ht.root
  have hshort : "arrangements".utf8ByteSize = 12 := by decide +kernel
  rw [h.arrangements]
  simp [FileTree.locate, Path.hasNull, FileTree.walk, hroot, home, FileTree.nameLimit, hshort]

theorem Sound.rooted
    (h : Sound d t r w) (hp : IsRooted w p) : p.base = [] ∨ p.base = [d] := by
  rcases hp with hnil | harrangements | houtput
  · exact Or.inl hnil
  · rw [h.arrangements] at harrangements
    exact Or.inr harrangements
  · rw [h.output] at houtput
    exact Or.inr houtput

theorem IsOutput.base
    (houtput : w.output = ⟨d, [d], ["output"]⟩) (hp : IsOutput w p) :
    p.base = [] ∨ p.base = [d] := by
  have hjoin : ∀ text, (w.output.join text).base = [] ∨ (w.output.join text).base = [d] := by
    intro text
    rw [houtput]
    unfold Path.join
    split
    · exact Or.inl rfl
    · exact Or.inr rfl
  cases hp with
  | program name => exact hjoin _
  | rendering name => exact hjoin _

theorem Sound.withFiles
    (h : Sound d t r w) (hfiles : Filing d t r files) : Sound d t r { w with files } :=
  ⟨h.arrangements, h.output, hfiles, h.keyed, h.copies⟩

theorem Sound.hold (h : Sound d t r w) (ha : r.copy a) : Sound d t r (w.hold a) where
  arrangements := h.arrangements
  output := h.output
  filing := h.filing
  keyed := h.keyed.hold a
  copies := by
    intro name b hb
    rw [Workspace.workingCopy?_hold_eq] at hb
    split at hb
    · rwa [← Option.some.inj hb]
    · exact h.copies name b hb

theorem Sound.dropCopy (h : Sound d t r w) (name : Label) : Sound d t r (w.dropCopy name) where
  arrangements := h.arrangements
  output := h.output
  filing := h.filing
  keyed := h.keyed.dropCopy name
  copies := by
    intro other b hb
    rw [Workspace.workingCopy?_dropCopy] at hb
    split at hb
    · simp at hb
    · exact h.copies other b hb

theorem Sound.place_of_locate
    (ht : IsOpen d t) (h : Sound d t r w) (hlocate : w.files.locate (pathOf w name) = .ok q) :
    q = fileOf (home d) name :=
  (locate_pathOf_inv (h.located ht) h.filing.free hlocate).2.2

theorem Sound.isHome (ht : IsOpen d t) (h : Sound d t r w) : IsHome w (home d) where
  located := h.located ht
  isFree := by
    rcases h.filing.free with hnone | hdirectory
    · exact Or.inr ⟨hnone, h.filing.isTree.entriesIn_eq_nil hnone⟩
    · exact Or.inl hdirectory

/-- The file of a legal name can be read as the arrangement. -/
structure IsFiled (d : String) (files : FileTree) (name : String) (a : Arrangement) : Prop where
  isLegal : IsLegal name
  filed : ∃ content stamp, files.at? (fileOf (home d) name) = some (.file content stamp) ∧
    Holds content a

/-- Without a working copy an arrangement is asked for in the file of the name. -/
theorem Sound.asked_iff_isFiled
    (ht : IsOpen d t) (h : Sound d t r w) (hheld : w.workingCopy? name = none) :
    Asked name w v a ↔ v = w.hold a ∧ IsFiled d w.files name a := by
  constructor
  · intro hasked
    cases hasked with
    | held hsome => simp [hheld] at hsome
    | @loaded _ content stamp _ hread hdocument =>
        obtain ⟨q, hlocate, hfile⟩ := FileTree.read_inv hread
        obtain ⟨hlegal, -, rfl⟩ := locate_pathOf_inv (h.located ht) h.filing.free hlocate
        exact ⟨rfl, hlegal, content, stamp, hfile, holds_of_fromDocument hdocument⟩
  · rintro ⟨rfl, hlegal, content, stamp, hfile, hholds⟩
    have hlocate := (h.isHome ht).locate_pathOf_of_file hlegal hfile
    exact .loaded hheld (FileTree.read_of_located hlocate hfile) (hholds _)

/-- An arrangement that is asked for is under its own name, or in the file of the name. -/
theorem Sound.asked
    (ht : IsOpen d t) (hr : r.IsKept) (h : Sound d t r w) (hasked : Asked name w v a) :
    Sound d t r v ∧ r.copy a ∧ (a.name = .text name ∨ IsFiled d w.files name a) := by
  cases hheld : w.workingCopy? name with
  | some b =>
      cases hasked with
      | held hsome => exact ⟨h, h.copies name a hsome, Or.inl (h.keyed name a hsome)⟩
      | loaded hnone _ _ => simp [hheld] at hnone
  | none =>
      obtain ⟨rfl, hfiled⟩ := (h.asked_iff_isFiled ht hheld).1 hasked
      obtain ⟨content, stamp, hfile, hholds⟩ := hfiled.filed
      have hcopy := hr.read (h.filing.obeyed _ content stamp hfile) hholds
      exact ⟨h.hold hcopy, hcopy, Or.inr hfiled⟩

theorem Sound.save
    (ht : IsOpen d t) (hr : r.IsKept) (h : Sound d t r w) (ha : r.copy a)
    (hsave : Library.Saves a w v) : Sound d t r v := by
  obtain ⟨name, made, files, hname, hmake, hwrite, rfl⟩ := hsave
  have hbase : w.arrangements.base = [] ∨ w.arrangements.base = [d] := by
    rw [h.arrangements]
    exact Or.inr rfl
  have hmade := h.filing.makeDirectories ht hbase hmake
  have hpath : (pathOf w name).base = [] ∨ (pathOf w name).base = [d] := by
    rw [Library.pathOf_eq]
    exact hbase
  have hfiles := hmade.isTree.write (hmade.base ht hpath) hwrite
  have hdirectories := h.withFiles hmade
  obtain ⟨q, hlocate, hfree, rfl⟩ := FileTree.write_inv hwrite
  obtain rfl := hdirectories.place_of_locate ht hlocate
  have hkeep := FileTree.keepsDirectories_put_file hfree (.file (.text (Yaml.write a.datum)) w.stamp)
  refine (h.withFiles (hmade.change hfiles hkeep ?_ ?_)).hold ha
  · left
    exact FileTree.at?_put_of_ne _ (Library.home_ne_fileOf (home d) name).symm _
  · intro part content stamp hfile
    by_cases hsame : fileOf (home d) name = home d ++ [part]
    · right
      obtain ⟨-, hpart⟩ := List.append_inj' hsame rfl
      rw [← hsame, FileTree.at?_put_self _ (Library.fileOf_ne_nil (home d) name)] at hfile
      obtain ⟨rfl, -⟩ : .text (Yaml.write a.datum) = content ∧ w.stamp = stamp := by
        simpa using hfile
      rw [← (List.cons.inj hpart).1]
      exact hr.save ha hname
    · exact Or.inl (FileTree.at?_put_of_ne _ hsame _)

theorem Sound.remove
    (ht : IsOpen d t) (h : Sound d t r w)
    (hremove : w.files.remove (pathOf w name) = .ok files) : Filing d t r files := by
  obtain ⟨q, content, stamp, hlocate, hfile, rfl⟩ := FileTree.remove_inv hremove
  obtain rfl := h.place_of_locate ht hlocate
  have hfree : w.files.at? (fileOf (home d) name) ≠ some .directory := by
    rw [hfile]
    simp
  have hhome := Library.home_ne_fileOf (home d) name
  apply h.filing.change (h.filing.isTree.erase hfree) (FileTree.keepsDirectories_erase hfree)
  · left
    exact FileTree.at?_erase_of_ne _ hhome.symm
  · intro part other time hother
    left
    apply FileTree.at?_erase_of_ne
    intro heq
    rw [← heq, FileTree.at?_erase_self _ (Library.fileOf_ne_nil (home d) name)] at hother
    simp at hother

/-- Every effect keeps what holds of a session. -/
theorem Sound.effect
    {target : Option Label} (ht : IsOpen d t) (hr : r.IsKept) (h : Sound d t r w)
    (heffect : Effect target w v) : Sound d t r v := by
  cases heffect with
  | unchanged => exact h
  | asked hasked => exact (h.asked ht hr hasked).1
  | created => exact h.hold (hr.new _)
  | duplicated hasked =>
      obtain ⟨hsound, hcopy, -⟩ := h.asked ht hr hasked
      exact hsound.hold (hr.rename _ hcopy)
  | edited hasked _ hedited =>
      -- the rule of copies is kept by edits, and asking for an arrangement gives a copy of the rule
      obtain ⟨hsound, hcopy, -⟩ := h.asked ht hr hasked
      exact hsound.hold (hr.edit hcopy hedited)
  | prepared hasked hrooted hmake =>
      have hsound := (h.asked ht hr hasked).1
      exact hsound.withFiles (hsound.filing.makeDirectories ht (hsound.rooted hrooted) hmake)
  | saved hasked hmake hname hwrite =>
      obtain ⟨hsound, hcopy, -⟩ := h.asked ht hr hasked
      exact hsound.save ht hr hcopy ⟨_, _, _, hname, hmake, hwrite, rfl⟩
  | exported hasked hrooted hmake houtput hwrite =>
      have hsound := (h.asked ht hr hasked).1
      have hmade := hsound.filing.makeDirectories ht (hsound.rooted hrooted) hmake
      have hbase := IsOutput.base hsound.output houtput
      exact hsound.withFiles (hmade.writeOutput ht hr hbase houtput hwrite)
  | dropped => exact h.dropCopy _
  | deleted _ hremove => exact (h.dropCopy _).withFiles (h.remove ht hremove)

/-! ## Steps -/

/-- A step of the session itself, and not one of placing files from outside. -/
def Step.isInside : Step → Bool
  | .place _ _ => false
  | _ => true

def Step.target? : Step → Option Label
  | .call tool args => Tool.target? args tool
  | _ => none

def tick (w : Workspace) : Workspace := { w with stamp := w.stamp + 1 }

theorem Sound.tick (h : Sound d t r w) : Sound d t r (tick w) :=
  ⟨h.arrangements, h.output, h.filing, h.keyed, h.copies⟩

theorem workingCopy?_forgetCopies (w : Workspace) (name : Label) :
    (forgetCopies w).workingCopy? name = none := rfl

theorem Sound.forgetCopies (h : Sound d t r w) : Sound d t r (forgetCopies w) where
  arrangements := h.arrangements
  output := h.output
  filing := h.filing
  keyed := fun name a hheld => by simp [workingCopy?_forgetCopies] at hheld
  copies := fun name a hheld => by simp [workingCopy?_forgetCopies] at hheld

theorem workspace_of_answer (x : Action Datum) (w : Workspace) :
    (answerOf (Reply.of x) w).1 = (x w).1 := by
  unfold answerOf Reply.of
  rcases x w with ⟨v, warnings, result⟩
  cases result <;> rfl

theorem value_of_error
    {x : Action Datum} {e : Fault} (h : (x w).2.result = .error e) :
    (answerOf (Reply.of x) w).2.value = Reply.error e := by
  unfold answerOf Reply.of
  rcases hrun : x w with ⟨v, warnings, result⟩
  rw [hrun] at h
  subst h
  rfl

theorem value_of_ok
    {x : Action Datum} {reply : Datum} (h : (x w).2.result = .ok reply) :
    (answerOf (Reply.of x) w).2.value = reply := by
  unfold answerOf Reply.of
  rcases hrun : x w with ⟨v, warnings, result⟩
  rw [hrun] at h
  subst h
  rfl

theorem error_ne_success (e : Fault) (fields : List (String × Datum)) :
    Reply.error e ≠ Reply.success fields := by
  simp [Reply.error, Reply.success, Datum.record]

/-- The answer tells of success, and not of a fault. -/
def Answer.IsSuccess (x : Answer) : Prop := ∃ fields, x.value = Reply.success fields

theorem ok_of_isSuccess
    {x : Action Datum} (h : (answerOf (Reply.of x) w).2.IsSuccess) :
    (x w).2.result = .ok (answerOf (Reply.of x) w).2.value := by
  obtain ⟨fields, hvalue⟩ := h
  cases hresult : (x w).2.result with
  | ok reply => rw [value_of_ok hresult]
  | error e => exact absurd ((value_of_error hresult).symm.trans hvalue) (error_ne_success e fields)

/-- An action whose replies tell of success fails if its answer tells of a fault. -/
theorem exists_error_of_value
    {x : Action Datum} {e : Fault} (hvalue : (answerOf (Reply.of x) w).2.value = Reply.error e)
    (hreplies : ∀ reply, (x w).2.result = .ok reply → ∃ fields, reply = Reply.success fields) :
    ∃ fault, (x w).2.result = .error fault := by
  cases hresult : (x w).2.result with
  | error fault => exact ⟨fault, rfl⟩
  | ok reply =>
      obtain ⟨fields, rfl⟩ := hreplies reply hresult
      exact absurd (hvalue.symm.trans (value_of_ok hresult)) (error_ne_success e fields)

theorem workspace_of_call (s : State) (tool : String) (args : Arguments) :
    ((Step.call tool args).run s).1.workspace = (toolAction tool args (tick s.workspace)).1 :=
  workspace_of_answer _ _

theorem files_placeFile (w : Workspace) (p : Path) (text : String) :
    ∃ files, placeFile w p text = { w with files } := by
  unfold placeFile
  dsimp only
  split
  · exact ⟨_, rfl⟩
  · exact ⟨w.files, rfl⟩

theorem workspace_of_describe (s : State) :
    (Step.describeLibrary.run s).1.workspace = tick s.workspace := by
  have hruns : Action.Runs (tick s.workspace = ·) listingTexts (tick s.workspace) fun _ v =>
      tick s.workspace = v := by
    unfold listingTexts
    refine (Action.runs_current (Q := fun _ v => tick s.workspace = v) rfl).bind ?_
    rintro _ _ rfl
    refine (Action.runs_ofOutcome rfl).bind ?_
    rintro found _ ⟨rfl, -⟩
    exact Action.runs_pure rfl
  exact (workspace_of_answer _ _).trans hruns.leaves.symm

/-- A step inside a session has an effect of the library, or forgets the working copies. -/
theorem Step.effect
    {step : Step} (hstep : step.isInside) (s : State) :
    Effect step.target? (Session.tick s.workspace) (step.run s).1.workspace ∨
      step = .restart ∧
        (step.run s).1.workspace = Session.forgetCopies (Session.tick s.workspace) := by
  cases step with
  | call tool args =>
      left
      rw [workspace_of_call]
      exact (Tool.call_runs tool).leaves
  | restart => exact Or.inr ⟨rfl, rfl⟩
  | place path text => simp [isInside] at hstep
  | reveal path => exact Or.inl .unchanged
  | listFiles => exact Or.inl .unchanged
  | describeLibrary =>
      left
      rw [workspace_of_describe]
      exact .unchanged

/-- Any step has an effect of the library, or forgets the working copies, or changes files from
outside. -/
theorem Step.effect_or_files (step : Step) (s : State) :
    Effect step.target? (Session.tick s.workspace) (step.run s).1.workspace ∨
      (step.run s).1.workspace = Session.forgetCopies (Session.tick s.workspace) ∨
        ∃ files, (step.run s).1.workspace = { Session.tick s.workspace with files } := by
  by_cases hinside : step.isInside
  · rcases Step.effect hinside s with heffect | ⟨-, hforget⟩
    · exact Or.inl heffect
    · exact Or.inr (Or.inl hforget)
  · cases step with
    | place path text => exact Or.inr (Or.inr (files_placeFile _ (s.root.join path) text))
    | _ => exact absurd rfl hinside

/-- What every step of a session keeps holds after all of them. -/
theorem run_induction
    {P : State → Prop} {s : State} {steps : List Step} (hs : P s)
    (hstep : ∀ {s : State} {step : Step}, step ∈ steps → P s → P (step.run s).1) :
    P (run s steps).1 := by
  induction steps generalizing s with
  | nil => exact hs
  | cons step rest ih =>
      apply ih (hstep List.mem_cons_self hs)
      intro s other hother
      exact hstep (List.mem_cons_of_mem step hother)

theorem Sound.step
    {s : State} {step : Step} (ht : IsOpen d t) (hr : r.IsKept)
    (h : Sound d t r s.workspace) (hstep : step.isInside) :
    Sound d t r (step.run s).1.workspace := by
  rcases Step.effect hstep s with heffect | ⟨-, hforget⟩
  · exact h.tick.effect ht hr heffect
  · rw [hforget]
    exact h.tick.forgetCopies

theorem Sound.run
    {s : State} {steps : List Step} (ht : IsOpen d t) (hr : r.IsKept)
    (h : Sound d t r s.workspace) (hsteps : ∀ step ∈ steps, step.isInside) :
    Sound d t r (run s steps).1.workspace := by
  refine run_induction (P := fun s => Sound d t r s.workspace) h ?_
  intro s step hmem hsound
  exact hsound.step ht hr (hsteps step hmem)

/-- A session begins soundly if the files that are there obey the rule. -/
theorem Sound.opened
    (ht : IsOpen d t) (hobeyed : ∀ part content stamp,
      t.at? (home d ++ [part]) = some (.file content stamp) → r.file part content) :
    Sound d t r (opened d t).workspace where
  arrangements := by
    have hparts : Path.partsOf "arrangements" = ["arrangements"] := by decide +kernel
    simp [Session.opened, start, Path.join, Path.atRoot, hparts]
  output := by
    have hparts : Path.partsOf "output" = ["output"] := by decide +kernel
    simp [Session.opened, start, Path.join, Path.atRoot, hparts]
  filing := ⟨ht.isTree, .refl t, ht.free, hobeyed⟩
  keyed := fun name a hheld => by simp [Session.opened, start, Workspace.workingCopy?] at hheld
  copies := fun name a hheld => by simp [Session.opened, start, Workspace.workingCopy?] at hheld

/-- The rule that everything obeys. -/
def anyRule : Rule := ⟨fun _ => True, fun _ _ => True⟩

theorem isKept_anyRule : anyRule.IsKept := by
  constructor <;> intros <;> trivial

theorem sound_opened (ht : IsOpen d t) : Sound d t anyRule (opened d t).workspace :=
  Sound.opened ht fun _ _ _ _ => trivial

theorem sound_run
    {steps : List Step} (ht : IsOpen d t) (hsteps : ∀ step ∈ steps, step.isInside) :
    Sound d t anyRule (run (opened d t) steps).1.workspace :=
  (sound_opened ht).run ht isKept_anyRule hsteps

/-! ## Beginnings without files -/

theorem at?_start (d : String) {place : Place} (hroot : place ≠ [d]) (hnil : place ≠ []) :
    (start d).workspace.files.at? place = none := by
  have hput := FileTree.at?_put_of_ne FileTree.empty hroot.symm .directory
  exact hput.trans (FileTree.at?_empty hnil)

theorem isOpen_start (d : String) : IsOpen d (start d).workspace.files where
  isTree := FileTree.isTree_empty.put (FileTree.at?_nil _) <|
    (FileTree.grows_put_directory (FileTree.at?_empty (by simp))).keepsDirectories
  root := FileTree.at?_put_self _ (by simp) _
  free := Or.inl (at?_start d (by simp [home]) (by simp [home]))

end Arranger.Session
