import Arranger.Midi.Song
import Arranger.Proofs.Midi.Timeline

/-!
# Notes from messages

A note is read off the messages of a track from the message that begins it to the next one that ends
a note of its pitch on its channel.  Of events that last, no two of which overlap with one pitch on
one channel, this gives back the events themselves: among the messages of one pitch every beginning
is followed by the end of the same note, since at one tick the ends come first.
-/

namespace Arranger.Midi

/-! ## Reading notes -/

/-- The message begins or ends a note of the pitch on the channel. -/
def Message.concerns (channel : Channel) (pitch : Pitch) (m : Message) : Bool :=
  m.begins channel pitch || m.ends channel pitch

/-- The notes of messages, each from its beginning to the next end of its pitch on its channel. -/
def notesOf : List (Nat × Message) → List Event
  | [] => []
  | (start, .noteOn channel pitch velocity) :: rest =>
      match rest.find? fun m => m.2.ends channel pitch with
      | some (stop, _) => ⟨pitch, start, stop - start, velocity, channel⟩ :: notesOf rest
      | none => notesOf rest
  | _ :: rest => notesOf rest

variable {channel : Channel} {pitch : Pitch} {events es : List Event}

theorem find?_filter_concerns (channel : Channel) (pitch : Pitch) (ms : List (Nat × Message)) :
    (ms.filter (·.2.concerns channel pitch)).find? (·.2.ends channel pitch) =
      ms.find? (·.2.ends channel pitch) := by
  rw [List.find?_filter]
  congr 1
  funext m
  cases hends : m.2.ends channel pitch <;> simp [Message.concerns, hends]

theorem notesOf_cons_of_not_noteOn
    {m : Nat × Message} (hm : isNoteOn m.2 = false) (rest : List (Nat × Message)) :
    notesOf (m :: rest) = notesOf rest := by
  obtain ⟨start, message⟩ := m
  cases message with
  | noteOn c p v => cases hm
  | _ => rfl

/-- The notes of one pitch are read off the messages that concern it. -/
theorem filter_notesOf (channel : Channel) (pitch : Pitch) (ms : List (Nat × Message)) :
    (notesOf ms).filter (·.isOf channel pitch) =
      notesOf (ms.filter (·.2.concerns channel pitch)) := by
  induction ms with
  | nil => rfl
  | cons m rest ih =>
      obtain ⟨start, message⟩ := m
      cases message with
      | noteOn c p v =>
          by_cases hsame : c = channel ∧ p = pitch
          · obtain ⟨rfl, rfl⟩ := hsame
            have hconcerns : (Message.noteOn c p v).concerns c p = true := by
              simp [Message.concerns, Message.begins]
            rw [List.filter_cons, if_pos hconcerns, notesOf, notesOf, find?_filter_concerns]
            cases hfind : rest.find? fun m => m.2.ends c p with
            | none => exact ih
            | some m =>
                have hof : Event.isOf c p ⟨p, start, m.1 - start, v, c⟩ = true := by
                  simp [Event.isOf]
                rw [List.filter_cons_of_pos hof, ih]
          · have hconcerns : (Message.noteOn c p v).concerns channel pitch = false := by
              simpa [Message.concerns, Message.begins, Message.ends] using hsame
            have hof : ∀ duration, Event.isOf channel pitch ⟨p, start, duration, v, c⟩ = false := by
              simpa [Event.isOf] using hsame
            rw [List.filter_cons_of_neg (by simp [hconcerns]), notesOf, ← ih]
            cases rest.find? fun m => m.2.ends c p with
            | none => rfl
            | some m => exact List.filter_cons_of_neg (by simp [hof])
      | _ =>
          rw [notesOf_cons_of_not_noteOn rfl, ih, List.filter_cons]
          split
          · rw [notesOf_cons_of_not_noteOn rfl]
          · rfl

/-- Messages that come note by note are read as the notes. -/
theorem notesOf_messages (es : List Event) : notesOf (es.flatMap Event.messages) = es := by
  induction es with
  | nil => rfl
  | cons e rest ih =>
      have hends : (Message.noteOff e.channel e.pitch 0).ends e.channel e.pitch = true := by
        simp [Message.ends]
      have hduration : e.start + e.duration - e.start = e.duration := Nat.add_sub_cancel_left _ _
      rw [List.flatMap_cons, Event.messages, List.cons_append, List.cons_append, List.nil_append,
        notesOf, List.find?_cons, hends, notesOf_cons_of_not_noteOn rfl, ih]
      simp only [hduration]

/-! ## Notes that do not overlap -/

/-- The notes have one pitch on one channel, and there is a tick at which both sound. -/
def Event.Overlaps (e f : Event) : Prop :=
  (e.channel = f.channel ∧ e.pitch = f.pitch) ∧
    ∃ tick, (e.start ≤ tick ∧ tick < e.stop) ∧ f.start ≤ tick ∧ tick < f.stop

namespace Event

variable {e f : Event}

theorem overlaps_iff :
    e.Overlaps f ↔ (e.channel = f.channel ∧ e.pitch = f.pitch) ∧
      max e.start f.start < min e.stop f.stop := by
  refine and_congr_right fun _ => ⟨?_, fun h => ⟨max e.start f.start, by omega⟩⟩
  rintro ⟨tick, he, hf⟩
  omega

instance (e f : Event) : Decidable (e.Overlaps f) := decidable_of_iff _ overlaps_iff.symm

theorem Overlaps.symm (h : e.Overlaps f) : f.Overlaps e := by
  obtain ⟨⟨hchannel, hpitch⟩, tick, he, hf⟩ := h
  exact ⟨⟨hchannel.symm, hpitch.symm⟩, tick, hf, he⟩

theorem isOf_iff : e.isOf channel pitch = true ↔ e.channel = channel ∧ e.pitch = pitch := by
  simp [isOf]

/-- The earlier one of two notes ends before the later one begins. -/
theorem stop_le_start
    (he : e.isOf channel pitch = true) (hf : f.isOf channel pitch = true) (hapart : ¬e.Overlaps f)
    (hpositive : 0 < f.duration) (hstart : e.start ≤ f.start) : e.stop ≤ f.start := by
  obtain ⟨rfl, rfl⟩ := isOf_iff.1 hf
  by_contra hlater
  have hsounds : f.start < f.stop := Nat.lt_add_of_pos_right hpositive
  exact hapart ⟨isOf_iff.1 he, f.start, ⟨hstart, by omega⟩, le_rfl, hsounds⟩

end Event

/-! ## The messages of one pitch -/

/-- The events of one pitch on one channel, sorted by their beginnings. -/
def inTurn (channel : Channel) (pitch : Pitch) (events : List Event) : List Event :=
  (events.filter (·.isOf channel pitch)).mergeSort fun e f => e.start ≤ f.start

theorem inTurn_perm (channel : Channel) (pitch : Pitch) (events : List Event) :
    (inTurn channel pitch events).Perm (events.filter (·.isOf channel pitch)) :=
  List.mergeSort_perm _ _

theorem filter_messages (channel : Channel) (pitch : Pitch) (events : List Event) :
    (events.flatMap Event.messages).filter (·.2.concerns channel pitch) =
      (events.filter (·.isOf channel pitch)).flatMap Event.messages := by
  induction events with
  | nil => rfl
  | cons e rest ih =>
      have hon : (Message.noteOn e.channel e.pitch e.velocity).concerns channel pitch =
          e.isOf channel pitch := by
        simp [Message.concerns, Message.begins, Message.ends, Event.isOf]
      have hoff : (Message.noteOff e.channel e.pitch 0).concerns channel pitch =
          e.isOf channel pitch := by
        simp [Message.concerns, Message.begins, Message.ends, Event.isOf]
      rw [List.flatMap_cons, List.filter_append, ih, List.filter_cons, Event.messages]
      cases hof : e.isOf channel pitch with
      | false => simp [hon, hoff, hof]
      | true => simp [hon, hoff, hof, Event.messages]

theorem filter_absolute_track
    (name : String) (events : List Event) (channel : Channel) (pitch : Pitch) :
    (absolute 0 (track name events)).filter (·.2.concerns channel pitch) =
      ((sorted events).map Placed.entry).filter (·.2.concerns channel pitch) := by
  have hname : (nameEntry name).filter (·.2.concerns channel pitch) = [] := by
    unfold nameEntry
    split <;> rfl
  rw [absolute_track_eq, List.filter_append, List.filter_append, hname]
  simp [Message.concerns, Message.begins, Message.ends]

section Apart

variable (hpositive : ∀ e ∈ events, 0 < e.duration)
  (hapart : events.Pairwise fun e f => ¬e.Overlaps f)

include hpositive hapart

theorem pairwise_inTurn (channel : Channel) (pitch : Pitch) :
    (inTurn channel pitch events).Pairwise fun e f => e.stop ≤ f.start := by
  have hsort := isStableSort_mergeSort Event.start (events.filter (·.isOf channel pitch))
  have hfilter := hapart.filter (·.isOf channel pitch)
  have hinTurn := hfilter.perm hsort.perm.symm fun h hsymm => h hsymm.symm
  refine (hsort.ascending.and hinTurn).imp_of_mem fun he hf h => ?_
  obtain ⟨-, he⟩ := List.mem_filter.1 (hsort.perm.mem_iff.1 he)
  obtain ⟨hf, hof⟩ := List.mem_filter.1 (hsort.perm.mem_iff.1 hf)
  exact Event.stop_le_start he hof h.2 (hpositive _ hf) h.1

/-- The messages of notes in turn have ascending ranks: where one note ends and the next begins,
the end comes first. -/
theorem pairwise_rank_inTurn (channel : Channel) (pitch : Pitch) :
    ((inTurn channel pitch events).flatMap Event.messages).Pairwise fun m n => rank m < rank n := by
  have hlasts : ∀ e ∈ inTurn channel pitch events, 0 < e.duration := fun e he =>
    hpositive e (List.mem_filter.1 ((inTurn_perm channel pitch events).mem_iff.1 he)).1
  rw [List.pairwise_flatMap]
  refine ⟨fun e he => ?_, (pairwise_inTurn hpositive hapart channel pitch).imp_of_mem ?_⟩
  · have := hlasts e he
    simp [Event.messages, rank, Prod.Lex.lt_iff, this]
  · intro e f he hf hstop m hm n hn
    -- at the tick that two notes share, only the end of the one and the beginning of the other meet
    have hdurations := And.intro (hlasts e he) (hlasts f hf)
    rcases List.mem_pair.1 hm with rfl | rfl <;> rcases List.mem_pair.1 hn with rfl | rfl
    all_goals
      simp only [Event.stop] at hstop
      simp [rank, Prod.Lex.lt_iff, Message.isNoteOff]
      omega

/-- Among the messages of a track, those of one pitch are those of its notes in turn. -/
theorem filter_concerns_track (name : String) (channel : Channel) (pitch : Pitch) :
    (absolute 0 (track name events)).filter (·.2.concerns channel pitch) =
      (inTurn channel pitch events).flatMap Event.messages := by
  have hsort := isStableSort_mergeSort rank (events.flatMap Event.messages)
  have hperm := hsort.perm.filter (·.2.concerns channel pitch)
  rw [filter_messages] at hperm
  rw [filter_absolute_track, map_entry_sorted]
  refine eq_of_perm_of_ascending ?_ ?_ (pairwise_rank_inTurn hpositive hapart _ _)
  · exact hperm.trans ((inTurn_perm channel pitch events).symm.flatMap_right _)
  · exact hsort.ascending.filter _

end Apart

theorem count_notesOf (ms : List (Nat × Message)) (e : Event) :
    (notesOf ms).count e = (notesOf (ms.filter (·.2.concerns e.channel e.pitch))).count e := by
  have hof : e.isOf e.channel e.pitch = true := Event.isOf_iff.2 ⟨rfl, rfl⟩
  rw [← filter_notesOf, List.count_filter hof]

/-- Events that last, no two of which overlap with one pitch on one channel, are what the notes of
their track are read as, and the messages of every pitch are the beginning and the end of a note by
turns. -/
theorem notesOf_track (hpositive : ∀ e ∈ events, 0 < e.duration)
    (hapart : events.Pairwise fun e f => ¬e.Overlaps f) (name : String) :
    let messages := absolute 0 (track name events)
    (notesOf messages).Perm events ∧
      ∀ channel pitch, (messages.filter (·.2.concerns channel pitch)).map (isNoteOn ·.2) =
        (List.replicate (events.countP (·.isOf channel pitch)) [true, false]).flatten := by
  intro messages
  have hinTurn := filter_concerns_track hpositive hapart name
  constructor
  · -- to count a note, the messages of its own channel and pitch are enough
    refine List.perm_iff_count.2 fun e => ?_
    have hof : e.isOf e.channel e.pitch = true := Event.isOf_iff.2 ⟨rfl, rfl⟩
    rw [count_notesOf, hinTurn, notesOf_messages, (inTurn_perm _ _ events).count_eq,
      List.count_filter hof]
  · intro channel pitch
    have hlength : (inTurn channel pitch events).length =
        events.countP (·.isOf channel pitch) := by
      rw [(inTurn_perm channel pitch events).length_eq, List.countP_eq_length_filter]
    rw [hinTurn, List.map_flatMap, ← hlength]
    induction inTurn channel pitch events with
    | nil => rfl
    | cons e rest ih =>
        rw [List.flatMap_cons, List.length_cons, List.replicate_succ, List.flatten_cons, ih]
        rfl

theorem notesOf_track_crossingNotes :
    (∀ e ∈ crossingNotes, 0 < e.duration) ∧
      (crossingNotes.Pairwise fun e f => ¬e.Overlaps f) ∧
        (notesOf (absolute 0 (track "lead" crossingNotes))).Perm crossingNotes :=
  have hpositive : ∀ e ∈ crossingNotes, 0 < e.duration := by decide
  have hapart : crossingNotes.Pairwise fun e f => ¬e.Overlaps f := by decide
  ⟨hpositive, hapart, (notesOf_track hpositive hapart "lead").1⟩

end Arranger.Midi
