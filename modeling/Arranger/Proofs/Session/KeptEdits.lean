import Arranger.Proofs.Session.NamedCalls

/-!
# Edits that are not lost

What an edit makes of the arrangement of a name is answered until somebody restarts or targets the
name again, if nobody else can put something in the place of its working copy.  This is so if no
other name has the file of the name, and if at the beginning the arrangements of the name are in its
own file and in no other one.  Otherwise asking for another name, or for the name itself, answers
what a file holds in the place of the edited arrangement.
-/

namespace Arranger.Session

open Library (Asked Effect IsLegal IsPlain fileName fileOf)

variable {d m n : String} {t : FileTree} {w v : Workspace} {target : Option Label}
  {a b : Arrangement}

/-! ## Own files -/

/-- Under the name and in the file of the name are the arrangements of the name, and no others. -/
def IsOwn (n name : String) (a : Arrangement) : Prop := a.name = .text n ↔ name = n

/-- A file of the name can be written. -/
structure HasRoom (d : String) (t : FileTree) (n : String) : Prop where
  isLegal : IsLegal n
  isFree : t.at? (fileOf (home d) n) ≠ some .directory

/-- The name has its file for itself, as far as it can have one, and its arrangements are there. -/
structure OwnsFile (d : String) (t : FileTree) (n : String) : Prop where
  isPlain : HasRoom d t n → IsPlain n
  isOwn : ∀ name a, IsFiled d t name a → IsOwn n name a

theorem HasRoom.of_fileName_eq (h : HasRoom d t m) (hfile : fileName m = fileName n) :
    HasRoom d t n where
  isLegal := (Library.isLegal_congr hfile).1 h.isLegal
  isFree := by
    rw [← Library.fileOf_inj.2 hfile]
    exact h.isFree

/-- Files hold arrangements of the name only if they are its file. -/
def ownRule (d : String) (t : FileTree) (n : String) : Rule where
  copy := fun _ => True
  file := fun part content => ∀ name a, fileName name = part → HasRoom d t name →
    Holds content a → IsOwn n name a

theorem OwnsFile.isKept (hown : OwnsFile d t n) : (ownRule d t n).IsKept where
  new := fun _ => trivial
  rename := fun _ _ => trivial
  edit := fun _ _ => trivial
  read := fun _ _ => trivial
  save := by
    intro a saved _ hsaved name b hsame hroom hholds
    rw [hholds.unique (holds_written a), IsOwn, hsaved, Label.text.injEq]
    constructor
    · rintro rfl
      exact (hown.isPlain (hroom.of_fileName_eq hsame)).eq_of_fileName_eq hsame
    · rintro rfl
      exact (hown.isPlain hroom).eq_of_fileName_eq hsame.symm
  output := by
    rintro part content hending name a rfl
    exact absurd hending (Library.not_isEnding_fileName name)

/-! ## Working copies -/

theorem Sound.hasRoom_of_isFiled
    {r : Rule} {name : String} (h : Sound d t r w) (hfiled : IsFiled d w.files name a) :
    HasRoom d t name where
  isLegal := hfiled.isLegal
  isFree := by
    intro hdirectory
    obtain ⟨content, stamp, hfile, -⟩ := hfiled.filed
    rw [h.filing.since _ hdirectory] at hfile
    simp at hfile

variable (ht : IsOpen d t) (hown : OwnsFile d t n)

include ht hown

theorem Sound.isOwn_of_asked
    {name : String} (h : Sound d t (ownRule d t n) w) (hasked : Asked name w v a) :
    IsOwn n name a := by
  obtain ⟨-, -, hname | hfiled⟩ := h.asked ht hown.isKept hasked
  · rw [IsOwn, hname, Label.text.injEq]
  · obtain ⟨content, stamp, hfile, hholds⟩ := hfiled.filed
    exact h.filing.obeyed _ content stamp hfile name a rfl (h.hasRoom_of_isFiled hfiled) hholds

theorem Sound.workingCopy?_asked
    {name : String} (h : Sound d t (ownRule d t n) w) (hheld : w.workingCopy? n = some b)
    (hasked : Asked name w v a) :
    v.workingCopy? n = some b ∧ (a.name = .text n → a = b) := by
  have hsame := h.isOwn_of_asked ht hown hasked
  cases hasked with
  | held hcopy =>
      refine ⟨hheld, ?_⟩
      intro heq
      rw [hsame.1 heq, hheld] at hcopy
      exact (Option.some.inj hcopy).symm
  | loaded hcopy hread hdocument =>
      have hne : a.name ≠ .text n := by
        intro heq
        rw [hsame.1 heq, hheld] at hcopy
        simp at hcopy
      refine ⟨?_, fun heq => absurd heq hne⟩
      rw [Workspace.workingCopy?_hold_eq, if_neg hne.symm]
      exact hheld

theorem Sound.workingCopy?_effect
    (h : Sound d t (ownRule d t n) w) (hheld : w.workingCopy? n = some b)
    (heffect : Effect target w v) (htarget : target ≠ some (.text n)) : v.workingCopy? n = some b := by
  have hother : ∀ (u : Workspace) (c : Arrangement), u.workingCopy? n = some b →
      c.name ≠ .text n → (u.hold c).workingCopy? n = some b := by
    intro u c hu hne
    rw [Workspace.workingCopy?_hold_eq, if_neg hne.symm]
    exact hu
  have hdropped : ∀ name, target = some name → (w.dropCopy name).workingCopy? n = some b := by
    intro name hname
    have hne : .text n ≠ name := fun heq => htarget (heq ▸ hname)
    rw [Workspace.workingCopy?_dropCopy, if_neg hne]
    exact hheld
  cases heffect with
  | unchanged => exact hheld
  | asked hasked => exact (h.workingCopy?_asked ht hown hheld hasked).1
  | created hname =>
      apply hother _ _ hheld
      rintro rfl
      exact htarget hname
  | duplicated hasked hname =>
      apply hother _ _ (h.workingCopy?_asked ht hown hheld hasked).1
      rintro rfl
      exact htarget hname
  | edited hasked hname hedited =>
      -- the edited copy is kept under its own name, which is that of the call by the rule
      apply hother _ _ (h.workingCopy?_asked ht hown hheld hasked).1
      intro heq
      have hn := (h.isOwn_of_asked ht hown hasked).1 (hedited.name_eq ▸ heq)
      exact htarget (hn ▸ hname)
  | prepared hasked => exact (h.workingCopy?_asked ht hown hheld hasked).1
  | saved hasked =>
      obtain ⟨hkept, hsame⟩ := h.workingCopy?_asked ht hown hheld hasked
      rw [Workspace.workingCopy?_hold_eq]
      split
      · next hname => rw [hsame hname.symm]
      · exact hkept
  | exported hasked => exact (h.workingCopy?_asked ht hown hheld hasked).1
  | dropped hname => exact hdropped _ hname
  | deleted hname => exact hdropped _ hname

theorem Sound.workingCopy?_run
    {s : State} {steps : List Step} (h : Sound d t (ownRule d t n) s.workspace)
    (hheld : s.workspace.workingCopy? n = some b)
    (hsteps : ∀ step ∈ steps, step.isInside ∧ step ≠ .restart ∧ step.target? ≠ some (.text n)) :
    (Session.run s steps).1.workspace.workingCopy? n = some b := by
  -- the session stays sound beside, as only then what is asked for comes under its own name
  refine (run_induction (P := fun s => Sound d t (ownRule d t n) s.workspace ∧
    s.workspace.workingCopy? n = some b) ⟨h, hheld⟩ ?_).2
  rintro s step hmem ⟨hsound, hkept⟩
  obtain ⟨hinside, hrestart, htarget⟩ := hsteps step hmem
  refine ⟨hsound.step ht (hown.isKept) hinside, ?_⟩
  rcases Step.effect hinside s with heffect | ⟨heq, -⟩
  · exact hsound.tick.workingCopy?_effect ht hown hkept heffect htarget
  · exact absurd heq hrestart

omit ht hown

/-! ## Kept edits -/

/-- After every edit of the name that a session makes, a get of the name answers what the edit made
of the arrangement, until the session restarts or targets the name again. -/
def KeepsEdits (s : State) (name : String) : Prop :=
  ∀ (before after : List Step) (tool : String) (args : Arguments)
    (f : Arrangement → Except Fault Arrangement),
    (∀ step ∈ before, step.isInside) →
    Tool.editOf? args tool = some f → args.get "arrangement" = .text name →
    ((Step.call tool args).run (run s before).1).2.IsSuccess →
    (∀ step ∈ after, step.isInside ∧ step ≠ .restart ∧ step.target? ≠ some (.text name)) →
    ∃ a b, Shows (run s before).1 name a ∧ f a = .ok b ∧
      Shows (run ((Step.call tool args).run (run s before).1).1 after).1 name b

theorem OwnsFile.keepsEdits (ht : IsOpen d t) (hown : OwnsFile d t n) :
    KeepsEdits (opened d t) n := by
  intro before after tool args f hbefore hf hname hsuccess hafter
  have hr := hown.isKept
  have hopened : Sound d t (ownRule d t n) (opened d t).workspace := by
    refine Sound.opened ht fun part content stamp hfile => ?_
    rintro name a rfl hroom hholds
    exact hown.isOwn name a ⟨hroom.isLegal, content, stamp, hfile, hholds⟩
  have hsound := hopened.run ht hr hbefore
  have hedit : Step.isInside (.call tool args) := rfl
  have hedited := hsound.step ht hr hedit
  generalize (run (opened d t) before).1 = s at *
  have hruns : Tool.RunsEdit args f (toolAction tool args) (tick s.workspace) :=
    Tool.edit_call_runs hf
  obtain ⟨⟨m, b, hm, u, a, hasked, hb, hleft⟩, -⟩ := hruns.answers _ (ok_of_isSuccess hsuccess)
  obtain rfl : m = n := by
    rw [hname] at hm
    exact (Except.ok.inj hm).symm
  have hbname : b.name = .text m := by
    rw [(Tool.edited_of_editOf? hf hb).name_eq]
    exact (hsound.tick.isOwn_of_asked ht hown hasked).2 rfl
  have hheld : ((Step.call tool args).run s).1.workspace.workingCopy? m = some b := by
    rw [workspace_of_call, hleft, Workspace.workingCopy?_hold_eq, if_pos hbname.symm]
  have hkept := hedited.workingCopy?_run ht hown hheld hafter
  exact ⟨a, b, shows_iff_asked.2 ⟨u, hasked⟩, hb, shows_of_held hkept⟩

end Arranger.Session
