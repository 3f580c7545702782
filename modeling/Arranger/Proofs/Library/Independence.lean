import Arranger.Proofs.Arrangement.Contents
import Arranger.Proofs.Library.Store
import Arranger.Proofs.Workspace.NewClips

/-!
# Edits of two clients

Two clients edit one working copy.  An edit needs and changes what stands under one name in one of
the lists only, so that clients that keep to different names do not see each other: each gets the
answers that it would get alone, and the arrangement finds in the end what it finds if one of them
waits for the other.
-/

namespace Arranger

/-! ## Slots -/

/-- A name in one of the lists of an arrangement. -/
abbrev Slot := Pool × String

def Change.slot (c : Change) : Slot := (c.pool, c.name)

namespace Contents

variable {m m' : Contents} {c : Change} {slot : Slot}

/-- What stands in a slot. -/
def held? (m : Contents) : Slot → Option (Clip ⊕ Track)
  | (.clips, name) => (m.clips.value? name).map .inl
  | (.tracks, name) => (m.tracks.value? name).map .inr

theorem held?_clips_inj {name : String} :
    m.held? (.clips, name) = m'.held? (.clips, name) ↔
      m.clips.value? name = m'.clips.value? name :=
  (Option.map_injective Sum.inl_injective).eq_iff

theorem held?_tracks_inj {name : String} :
    m.held? (.tracks, name) = m'.held? (.tracks, name) ↔
      m.tracks.value? name = m'.tracks.value? name :=
  (Option.map_injective Sum.inr_injective).eq_iff

theorem held?_change_of_ne (hslot : slot ≠ c.slot) :
    (m.change c).1.held? slot = m.held? slot := by
  obtain ⟨_ | _, name⟩ := slot
  · rw [held?_clips_inj]
    cases c with
    | addClip | removeClip =>
        refine Function.update_of_ne ?_ _ _
        rintro rfl
        exact hslot rfl
    | addTrack | removeTrack | appendClip => rfl
  · rw [held?_tracks_inj]
    cases c with
    | addClip | removeClip => rfl
    | addTrack | removeTrack | appendClip =>
        refine Function.update_of_ne ?_ _ _
        rintro rfl
        exact hslot rfl

/-- What a change answers and what it puts into its slot is settled by what stands there. -/
theorem change_congr (h : m.held? c.slot = m'.held? c.slot) :
    (m.change c).2 = (m'.change c).2 ∧
      (m.change c).1.held? c.slot = (m'.change c).1.held? c.slot := by
  cases c with
  | addClip clip => simp [change, held?, Change.slot, Change.pool, Change.name]
  | removeClip name =>
      have hvalue : m.clips.value? name = m'.clips.value? name := held?_clips_inj.1 h
      simp [change, held?, Change.slot, Change.pool, Change.name, OrderedMap.has, hvalue]
  | addTrack track => simp [change, held?, Change.slot, Change.pool, Change.name]
  | removeTrack name =>
      have hvalue : m.tracks.value? name = m'.tracks.value? name := held?_tracks_inj.1 h
      simp [change, held?, Change.slot, Change.pool, Change.name, OrderedMap.has, hvalue]
  | appendClip track clip =>
      have hvalue : m.tracks.value? track = m'.tracks.value? track := held?_tracks_inj.1 h
      simp [change, held?, Change.slot, Change.pool, Change.name, OrderedMap.has, hvalue]

end Contents

namespace Library

/-! ## Edits as changes -/

/-- The change that an edit asks for; a track that cannot be made asks for none. -/
def Edit.change? : Edit → Except Fault Change
  | addClip clip => .ok (.addClip clip)
  | removeClip clip => .ok (.removeClip clip)
  | addTrack track clips => Change.addTrack <$> Notation.track (.text track) (clips.map .ofLabel)
  | appendClip track clip => .ok (.appendClip track clip)
  | removeTrack track => .ok (.removeTrack track)

/-- The clip or the track that an edit is about. -/
def Edit.slot : Edit → Slot
  | addClip clip => (.clips, clip.name)
  | removeClip clip => (.clips, clip)
  | addTrack track _ => (.tracks, track)
  | appendClip track _ => (.tracks, track)
  | removeTrack track => (.tracks, track)

theorem Edit.slot_of_change? {e : Edit} {c : Change} (h : e.change? = .ok c) : c.slot = e.slot := by
  cases e with
  | addTrack track clips =>
      obtain ⟨t, ht, rfl⟩ := map_eq_ok_iff.1 h
      exact Prod.ext rfl (Notation.name_of_track ht)
  | addClip | removeClip | appendClip | removeTrack =>
      rw [← Except.ok.inj h]
      rfl

/-- What is missed if a change cannot be made. -/
def missed (c : Change) : Fault :=
  match c.pool with
  | .clips => .missing .clip c.name
  | .tracks => .missing .track c.name

theorem Edit.result_of_error {e : Edit} {fault : Fault} (h : e.change? = .error fault)
    (a : Arrangement) : e.result a = .error fault := by
  cases e with
  | addTrack track clips =>
      cases htrack : Notation.track (.text track) (clips.map .ofLabel) with
      | error other =>
          rw [change?, htrack] at h
          rw [result, htrack]
          exact congrArg _ (Except.error.inj h)
      | ok t => simp [change?, htrack] at h
  | addClip | removeClip | appendClip | removeTrack => cases h

theorem Edit.result_of_ok {e : Edit} {c : Change} (h : e.change? = .ok c) (a : Arrangement) :
    e.result a = if (a.change c).2 then .ok (a.change c).1 else .error (missed c) := by
  cases e with
  | addClip clip =>
      rw [← Except.ok.inj h]
      rfl
  | addTrack track clips =>
      obtain ⟨t, ht, rfl⟩ := map_eq_ok_iff.1 h
      rw [result, ht]
      rfl
  | removeClip clip =>
      rw [← Except.ok.inj h, result, Arrangement.change, Change.result?]
      cases a.removeClip? clip <;> rfl
  | appendClip track clip =>
      rw [← Except.ok.inj h, result, Arrangement.change, Change.result?]
      cases a.appendClip? track clip <;> rfl
  | removeTrack track =>
      rw [← Except.ok.inj h, result, Arrangement.change, Change.result?]
      cases a.removeTrack? track <;> rfl

/-- What an edit makes of maps, and whether it succeeds. -/
def Edit.onContents (e : Edit) (m : Contents) : Contents × Except Fault Unit :=
  match e.change? with
  | .error fault => (m, .error fault)
  | .ok c => ((m.change c).1, if (m.change c).2 then .ok () else .error (missed c))

/-! ## Slots of one client -/

/-- The same clips and tracks stand in the slots. -/
def AgreeOn (slots : Set Slot) (m m' : Contents) : Prop :=
  ∀ slot ∈ slots, m.held? slot = m'.held? slot

variable {slots : Set Slot} {m m' : Contents} {e : Edit}

theorem agreeOn_onContents (hslot : e.slot ∉ slots) : AgreeOn slots (e.onContents m).1 m := by
  intro slot hmem
  unfold Edit.onContents
  cases hchange : e.change? with
  | error fault => rfl
  | ok c =>
      refine Contents.held?_change_of_ne ?_
      rintro rfl
      exact hslot (e.slot_of_change? hchange ▸ hmem)

theorem onContents_congr (hslot : e.slot ∈ slots) (h : AgreeOn slots m m') :
    (e.onContents m).2 = (e.onContents m').2 ∧
      AgreeOn slots (e.onContents m).1 (e.onContents m').1 := by
  unfold Edit.onContents
  cases hchange : e.change? with
  | error fault => exact ⟨rfl, h⟩
  | ok c =>
      rw [← e.slot_of_change? hchange] at hslot
      obtain ⟨hanswer, hheld⟩ := Contents.change_congr (h c.slot hslot)
      refine ⟨by simp only [hanswer], ?_⟩
      intro slot hmem
      by_cases heq : slot = c.slot
      · rw [heq]
        exact hheld
      · simp only [Contents.held?_change_of_ne heq, h slot hmem]

/-! ## Two clients -/

inductive Client where
  | first
  | second
  deriving DecidableEq

/-- What is of a client, in its order. -/
def ofClient {α : Type} (client : Client) (xs : List (Client × α)) : List α :=
  (xs.filter (·.1 = client)).map Prod.snd

/-- The edits of a schedule, one after another, with what each client learns of its own. -/
def scheduled (m : Contents) : List (Client × Edit) → Contents × List (Client × Except Fault Unit)
  | [] => (m, [])
  | (client, e) :: rest =>
      let (m, outcome) := e.onContents m
      let (m, outcomes) := scheduled m rest
      (m, (client, outcome) :: outcomes)

/-- The edits of one client alone. -/
def alone (m : Contents) : List Edit → Contents × List (Except Fault Unit)
  | [] => (m, [])
  | e :: rest =>
      let (m, outcome) := e.onContents m
      let (m, outcomes) := alone m rest
      (m, outcome :: outcomes)

/-- In slots that a client has for itself a schedule does what the edits of the client do alone. -/
theorem scheduled_alone
    {client : Client} {schedule : List (Client × Edit)}
    (hown : ∀ x ∈ schedule, x.2.slot ∈ slots ↔ x.1 = client) (h : AgreeOn slots m m') :
    ofClient client (scheduled m schedule).2 = (alone m' (ofClient client schedule)).2 ∧
      AgreeOn slots (scheduled m schedule).1 (alone m' (ofClient client schedule)).1 := by
  -- the maps of the two runs need to agree on the slots only, and may differ elsewhere
  induction schedule generalizing m m' with
  | nil => exact ⟨rfl, h⟩
  | cons x rest ih =>
      obtain ⟨sender, e⟩ := x
      have hslot : e.slot ∈ slots ↔ sender = client := hown _ List.mem_cons_self
      have hrest : ∀ x ∈ rest, x.2.slot ∈ slots ↔ x.1 = client :=
        fun x hx => hown x (List.mem_cons_of_mem _ hx)
      by_cases hsender : sender = client
      · obtain ⟨houtcome, hnext⟩ := onContents_congr (hslot.2 hsender) h
        obtain ⟨houtcomes, hlast⟩ := ih hrest hnext
        simp only [ofClient, List.filter_cons, hsender, decide_true, if_true, List.map_cons,
          scheduled, alone] at houtcomes hlast ⊢
        exact ⟨List.cons_eq_cons.2 ⟨houtcome, houtcomes⟩, hlast⟩
      · -- The other client's edit passes the slots by, and the lone run waits.
        have hnext : AgreeOn slots (e.onContents m).1 m' := by
          intro slot hmem
          have hsame := agreeOn_onContents (m := m) (fun hmem => hsender (hslot.1 hmem)) slot hmem
          exact hsame.trans (h slot hmem)
        obtain ⟨houtcomes, hlast⟩ := ih hrest hnext
        simp only [ofClient, List.filter_cons, hsender, decide_false, Bool.false_eq_true, if_false,
          scheduled] at houtcomes hlast ⊢
        exact ⟨houtcomes, hlast⟩

/-! ## Independent edits -/

/-- A schedule of the edits of both clients, each client's in their order. -/
def IsInterleaving (edits : Client → List Edit) (schedule : List (Client × Edit)) : Prop :=
  ∀ client, ofClient client schedule = edits client

/-- First the edits of the one client, then those of the other. -/
def inTurn (edits : Client → List Edit) : List (Client × Edit) :=
  (edits .first).map (.first, ·) ++ (edits .second).map (.second, ·)

theorem isInterleaving_inTurn (edits : Client → List Edit) :
    IsInterleaving edits (inTurn edits) := by
  intro client
  cases client <;> simp [ofClient, inTurn, List.filter_map, Function.comp_def]

/-- No clip and no track is what edits of both clients are about. -/
def AreIndependent (edits : Client → List Edit) : Prop :=
  ∀ e ∈ edits .first, ∀ e' ∈ edits .second, e.slot ≠ e'.slot

instance (edits : Client → List Edit) : Decidable (AreIndependent edits) :=
  inferInstanceAs (Decidable (∀ e ∈ edits .first, ∀ e' ∈ edits .second, e.slot ≠ e'.slot))

/-- The slots that the other client does not touch. -/
def ownSlots (edits : Client → List Edit) (client : Client) : Set Slot :=
  { slot | ∀ other, other ≠ client → ∀ e ∈ edits other, e.slot ≠ slot }

variable {edits : Client → List Edit} {schedule schedule' : List (Client × Edit)}

theorem mem_edits (h : IsInterleaving edits schedule) {x : Client × Edit} (hx : x ∈ schedule) :
    x.2 ∈ edits x.1 := by
  rw [← h x.1]
  exact List.mem_map_of_mem (List.mem_filter.2 ⟨hx, by simp⟩)

theorem slot_ne_of_independent (h : AreIndependent edits) {client other : Client}
    (hne : other ≠ client) {e e' : Edit} (he : e ∈ edits client) (he' : e' ∈ edits other) :
    e'.slot ≠ e.slot := by
  cases client <;> cases other
  · exact absurd rfl hne
  · exact (h e he e' he').symm
  · exact h e' he' e he
  · exact absurd rfl hne

theorem slot_mem_ownSlots_iff
    (hindependent : AreIndependent edits) (hschedule : IsInterleaving edits schedule)
    {client : Client} {x : Client × Edit} (hx : x ∈ schedule) :
    x.2.slot ∈ ownSlots edits client ↔ x.1 = client := by
  have hedit := mem_edits hschedule hx
  constructor
  · intro hown
    by_contra hne
    exact hown x.1 hne x.2 hedit rfl
  · rintro rfl other hne e he
    exact slot_ne_of_independent hindependent hne hedit he

theorem exists_mem_ownSlots (h : AreIndependent edits) (slot : Slot) :
    ∃ client, slot ∈ ownSlots edits client := by
  by_cases hfirst : ∃ e ∈ edits .first, e.slot = slot
  · obtain ⟨e, he, rfl⟩ := hfirst
    exact ⟨.first, fun _ hne _ he' => slot_ne_of_independent h hne he he'⟩
  · -- What the first client does not touch is free for the second.
    refine ⟨.second, ?_⟩
    rintro (_ | _) hne e he
    · exact fun heq => hfirst ⟨e, he, heq⟩
    · exact absurd rfl hne

theorem scheduled_own
    (hindependent : AreIndependent edits) (h : IsInterleaving edits schedule) (client : Client)
    (m : Contents) :
    ofClient client (scheduled m schedule).2 = (alone m (edits client)).2 ∧
      AgreeOn (ownSlots edits client) (scheduled m schedule).1 (alone m (edits client)).1 := by
  rw [← h client]
  refine scheduled_alone ?_ fun _ _ => rfl
  intro x hx
  exact slot_mem_ownSlots_iff hindependent h hx

/-- The order in which independent edits of two clients take turns makes no difference. -/
theorem scheduled_congr
    (hindependent : AreIndependent edits) (h : IsInterleaving edits schedule)
    (h' : IsInterleaving edits schedule') (m : Contents) :
    (∀ client, ofClient client (scheduled m schedule).2 =
        ofClient client (scheduled m schedule').2) ∧
      ∀ slot, (scheduled m schedule).1.held? slot = (scheduled m schedule').1.held? slot := by
  have hown := fun client => scheduled_own hindependent h client m
  have hown' := fun client => scheduled_own hindependent h' client m
  refine ⟨fun client => (hown client).1.trans (hown' client).1.symm, ?_⟩
  intro slot
  obtain ⟨client, hslot⟩ := exists_mem_ownSlots hindependent slot
  exact ((hown client).2 slot hslot).trans ((hown' client).2 slot hslot).symm

/-! ## Working copies -/

/-- The working copy of a name carries the name, and its clips and tracks are those of maps. -/
def Keeps (w : Workspace) (name : String) (m : Contents) : Prop :=
  ∃ a, ∃ h : a.HasDistinctNames, w.workingCopy? name = some a ∧ a.name = name ∧ a.contents h = m

/-- Serves the edits of a schedule, with what each client learns: that its edit has succeeded, or
why not. -/
def serveClients (name : String) (w : Workspace) :
    List (Client × Edit) → Workspace × List (Client × Except Fault Unit)
  | [] => (w, [])
  | (client, e) :: rest =>
      let (w, outcome) := serve w (.edit name e)
      let (w, outcomes) := serveClients name w rest
      (w, (client, outcome.result.map fun _ => ()) :: outcomes)

variable {w : Workspace} {name : String}

theorem serve_edit (h : Keeps w name m) (e : Edit) :
    Keeps (serve w (.edit name e)).1 name (e.onContents m).1 ∧
      ((serve w (.edit name e)).2.result.map fun _ => ()) = (e.onContents m).2 := by
  obtain ⟨a, hdistinct, hheld, hname, rfl⟩ := h
  set v : Workspace := { w with stamp := w.stamp + 1 } with hv
  have hrequire : require name v = (v, .value a) := require_of_some (get?_of_held hheld)
  have hserve : serve w (.edit name e) = (Reply.arrangement <$> edit name e.result) v := by
    rw [← Edit.action_eq]
    rfl
  rw [hserve, Edit.onContents]
  cases hchange : e.change? with
  | error fault =>
      rw [Action.map_of_fail (edit_of_error hrequire (Edit.result_of_error hchange a))]
      exact ⟨⟨a, hdistinct, hheld, hname, rfl⟩, rfl⟩
  | ok c =>
      have hresult := Edit.result_of_ok hchange a
      obtain ⟨hb, hfollows⟩ := Arrangement.follows hdistinct c
      obtain ⟨hcontents, hanswer⟩ := Prod.ext_iff.1 hfollows
      dsimp only at hcontents hanswer ⊢
      rw [← hanswer]
      cases hmade : (a.change c).2 with
      | false =>
          have hkept : (a.change c).1 = a := Arrangement.change_of_not_made hmade
          simp only [hmade, Bool.false_eq_true, if_false] at hresult
          rw [Action.map_of_fail (edit_of_error hrequire hresult)]
          refine ⟨⟨(a.change c).1, hb, ?_, ?_, hcontents⟩, rfl⟩
          · rw [hkept]
            exact hheld
          · rw [hkept, hname]
      | true =>
          simp only [hmade, if_true] at hresult
          have hsame : (a.change c).1.name = name := (Edit.name_of_result hresult).trans hname
          rw [Action.map_of_value (edit_of_ok hrequire hresult)]
          refine ⟨⟨(a.change c).1, hb, ?_, hsame, hcontents⟩, rfl⟩
          rw [Workspace.workingCopy?_hold_eq, if_pos hsame.symm]

theorem serveClients_eq (h : Keeps w name m) (schedule : List (Client × Edit)) :
    Keeps (serveClients name w schedule).1 name (scheduled m schedule).1 ∧
      (serveClients name w schedule).2 = (scheduled m schedule).2 := by
  induction schedule generalizing w m with
  | nil => exact ⟨h, rfl⟩
  | cons x rest ih =>
      obtain ⟨client, e⟩ := x
      obtain ⟨hnext, houtcome⟩ := serve_edit h e
      obtain ⟨hlast, houtcomes⟩ := ih hnext
      simp only [serveClients, scheduled, ← houtcome, ← houtcomes]
      exact ⟨hlast, trivial⟩

/-- Two clients edit the working copy of an arrangement without repeated names, and no edits of both
are about one clip or one track; working copies stand under their own names, as they do in every
session.  In whatever order the edits take turns, each edit succeeds or fails as it does if all
edits of the first client come before those of the second; and the working copies that remain have
under each name the same clip, and the same track with the same references in the same order. -/
theorem independent_edits_commute
    (hkeyed : w.IsKeyed) {a : Arrangement} (hheld : w.workingCopy? name = some a)
    (hdistinct : a.HasDistinctNames) (hindependent : AreIndependent edits)
    (hschedule : IsInterleaving edits schedule) :
    let mixed := serveClients name w schedule
    let ordered := serveClients name w (inTurn edits)
    (∀ client, ofClient client mixed.2 = ofClient client ordered.2) ∧
      ∃ b b', mixed.1.workingCopy? name = some b ∧ ordered.1.workingCopy? name = some b' ∧
        (∀ n, b.clip? n = b'.clip? n) ∧ ∀ n, b.track? n = b'.track? n := by
  intro mixed ordered
  have hkeeps : Keeps w name (a.contents hdistinct) :=
    ⟨a, hdistinct, hheld, hkeyed name a hheld, rfl⟩
  obtain ⟨⟨b, hb, hmixed, -, hcontents⟩, houtcomes⟩ := serveClients_eq hkeeps schedule
  obtain ⟨⟨b', hb', hordered, -, hcontents'⟩, houtcomes'⟩ := serveClients_eq hkeeps (inTurn edits)
  obtain ⟨hanswers, hslots⟩ := scheduled_congr hindependent hschedule
    (isInterleaving_inTurn edits) (a.contents hdistinct)
  rw [← hcontents, ← hcontents'] at hslots
  refine ⟨?_, b, b', hmixed, hordered, ?_, ?_⟩
  · rw [houtcomes, houtcomes']
    exact hanswers
  · rintro (n | t)
    · exact Contents.held?_clips_inj.1 (hslots (.clips, n))
    · rfl
  · exact fun n => Contents.held?_tracks_inj.1 (hslots (.tracks, n))

def hornClip : Clip := .file ⟨⟨"horn", by decide⟩, ⟨"horn.wav", by decide⟩⟩

def oboeClip : Clip := .file ⟨⟨"oboe", by decide⟩, ⟨"oboe.wav", by decide⟩⟩

def sampleCopy : Arrangement where
  name := "tune"
  clips := [hornClip]
  tracks := [⟨⟨"tutti", by decide⟩, ["horn"]⟩, ⟨⟨"solo", by decide⟩, []⟩]

/-- The first client takes the clip away and sees to one track; the second client adds a clip and
sees to the others. -/
def sampleEdits : Client → List Edit
  | .first => [.appendClip "tutti" "oboe", .removeClip "horn", .removeClip "horn"]
  | .second => [.addClip oboeClip, .removeTrack "solo", .appendClip "solo" "oboe",
      .addTrack "solo" ["oboe"], .addTrack "" []]

def sampleSchedule : List (Client × Edit) :=
  [(.second, .addClip oboeClip), (.first, .appendClip "tutti" "oboe"),
    (.second, .removeTrack "solo"), (.first, .removeClip "horn"),
    (.second, .appendClip "solo" "oboe"), (.second, .addTrack "solo" ["oboe"]),
    (.first, .removeClip "horn"), (.second, .addTrack "" [])]

theorem independent_edits_commute_sampleSchedule :
    let w := (Session.start "d").workspace.hold sampleCopy
    let mixed := serveClients "tune" w sampleSchedule
    (ofClient .first mixed.2).map (·.toOption.isSome) = [true, true, false] ∧
      (ofClient .second mixed.2).map (·.toOption.isSome) = [true, true, false, true, false] ∧
        ∃ b, mixed.1.workingCopy? "tune" = some b ∧
          b.track? "tutti" = some ⟨⟨"tutti", by decide⟩, ["horn", "oboe"]⟩ := by
  intro w mixed
  have hkeyed : w.IsKeyed := by
    refine Workspace.IsKeyed.hold ?_ sampleCopy
    intro name a ha
    cases ha
  have hheld : w.workingCopy? "tune" = some sampleCopy := Workspace.workingCopy?_hold _ _
  have hdistinct : sampleCopy.HasDistinctNames := ⟨by decide, by decide⟩
  have hindependent : AreIndependent sampleEdits := by decide
  have hschedule : IsInterleaving sampleEdits sampleSchedule := by
    intro client
    cases client <;> rfl
  obtain ⟨hanswers, b, b', hmixed, hordered, -, htracks⟩ :=
    independent_edits_commute hkeyed hheld hdistinct hindependent hschedule
  refine ⟨?_, ?_, b, hmixed, ?_⟩
  · rw [hanswers]
    decide +kernel
  · rw [hanswers]
    decide +kernel
  · have hshown : ((serveClients "tune" w (inTurn sampleEdits)).1.workingCopy? "tune").map
        (·.track? "tutti") = some (some ⟨⟨"tutti", by decide⟩, ["horn", "oboe"]⟩) := by
      decide +kernel
    rw [hordered] at hshown
    rw [htracks]
    exact Option.some.inj hshown

end Library

end Arranger
