import Arranger.Midi.File
import Arranger.Proofs.Midi.Score
import Mathlib.Data.List.TakeWhile

/-!
# What of a song can be written

The messages of notes can always be written.  A name can be written if all of its characters are in
the character set of the files, and the header has room for a number of tracks that is small enough.
-/

namespace Arranger

open Midi Text

namespace Text

theorem exists_encode_iff {charset : Charset} {s : List CodePoint} :
    (∃ bytes, charset.encode s = .ok bytes) ↔ ∀ p ∈ s, charset.has p := by
  rw [← List.dropWhile_eq_nil_iff]
  unfold Charset.encode
  cases s.dropWhile charset.has with
  | nil => simp
  | cons first rest => simp

end Text

namespace Midi

/-- Whether there are bytes for a message. -/
def Message.IsEncodable : Message → Prop
  | .trackName name => ∀ c ∈ name.toList, Charset.latin1.has c
  | _ => True

theorem channelBytes?_eq_none_or_isEncodable (m : Message) :
    channelBytes? m = none ∨ m.IsEncodable := by
  cases m with
  | trackName name => exact Or.inl rfl
  | _ => exact Or.inr trivial

theorem exists_metaMessageBytes_iff {m : Message} :
    (∃ bytes, metaMessageBytes m = .ok bytes) ↔ m.IsEncodable := by
  cases m with
  | trackName name =>
      have hname : (∀ c ∈ name.toList, Charset.latin1.has c) ↔
          ∃ bytes, Charset.latin1.encode (Label.text name).points = .ok bytes := by
        rw [exists_encode_iff, Label.points_text, pointsOf, List.forall_mem_map]
      rw [Message.IsEncodable, hname]
      simp only [metaMessageBytes, bind_eq_ok_iff]
      constructor
      · rintro ⟨_, encoded, hencoded, -⟩
        exact ⟨encoded, hencoded⟩
      · rintro ⟨encoded, hencoded⟩
        exact ⟨_, encoded, hencoded, rfl⟩
  | _ => simp [metaMessageBytes, Message.IsEncodable]

/-- Messages can be written if each of them can, whatever the status byte before them. -/
theorem exists_messagesBytes_iff {running : Option UInt8} {messages : List Timed} :
    (∃ bytes, messagesBytes running messages = .ok bytes) ↔
      ∀ m ∈ messages, m.message.IsEncodable := by
  -- Every message leaves a status byte of its own to the ones behind it.
  induction messages generalizing running with
  | nil => simp [messagesBytes]
  | cons m rest ih =>
      rw [List.forall_mem_cons, messagesBytes]
      cases hchannel : channelBytes? m.message with
      | some bytes =>
          obtain ⟨status, content⟩ := bytes
          have hm : m.message.IsEncodable := by
            rcases channelBytes?_eq_none_or_isEncodable m.message with hnone | hm
            · simp [hchannel] at hnone
            · exact hm
          simp only [bind_eq_ok_iff, hm, true_and, ← @ih (some status)]
          constructor
          · rintro ⟨_, more, hmore, -⟩
            exact ⟨more, hmore⟩
          · rintro ⟨more, hmore⟩
            exact ⟨_, more, hmore, rfl⟩
      | none =>
          rw [← @ih none, ← exists_metaMessageBytes_iff]
          simp only [bind_eq_ok_iff]
          constructor
          · rintro ⟨_, message, hmessage, more, hmore, -⟩
            exact ⟨⟨message, hmessage⟩, more, hmore⟩
          · rintro ⟨⟨message, hmessage⟩, more, hmore⟩
            exact ⟨_, message, hmessage, more, hmore, rfl⟩

/-! ## Songs -/

theorem fault_tracksBytes_eq_none_iff {tracks : List (List Timed)} :
    (tracksBytes tracks).fault = none ↔
      ∀ messages ∈ tracks, ∀ m ∈ messages, m.message.IsEncodable := by
  induction tracks with
  | nil => simp [tracksBytes]
  | cons messages rest ih =>
      rw [List.forall_mem_cons, tracksBytes, ← @exists_messagesBytes_iff none, ← ih]
      cases messagesBytes none messages with
      | error cause => simp
      | ok content => simp

theorem exists_shortBytes_iff {i : Int} :
    (∃ bytes, shortBytes i = .ok bytes) ↔ -32768 ≤ i ∧ i ≤ 32767 := by
  unfold shortBytes
  split
  · next hfits => simpa using hfits
  · next hfits => simpa using hfits

theorem exists_headerBytes_iff {song : Song} (hticks : song.ticksPerBeat = defaultTicksPerBeat) :
    (∃ bytes, headerBytes song = .ok bytes) ↔ song.tracks.length ≤ 32767 := by
  have hcount : song.tracks.length ≤ 32767 ↔
      ∃ bytes, shortBytes song.tracks.length = .ok bytes := by
    rw [exists_shortBytes_iff]
    omega
  rw [hcount]
  unfold headerBytes
  simp only [bind_eq_ok_iff, hticks]
  constructor
  · rintro ⟨_, format, -, count, hcount, -⟩
    exact ⟨count, hcount⟩
  · rintro ⟨count, hcount⟩
    exact ⟨_, _, rfl, count, hcount, _, rfl, rfl⟩

theorem fault_write_eq_none_iff {song : Song} (hticks : song.ticksPerBeat = defaultTicksPerBeat) :
    song.write.fault = none ↔
      song.tracks.length ≤ 32767 ∧
        ∀ messages ∈ song.tracks, ∀ m ∈ messages, m.message.IsEncodable := by
  rw [← exists_headerBytes_iff hticks, ← fault_tracksBytes_eq_none_iff, Song.write]
  cases headerBytes song with
  | error cause => simp
  | ok header => simp

/-! ## Renderings -/

theorem isEncodable_of_mem_deltas {now : Nat} {events : List Placed} {m : Timed}
    (hevents : ∀ p ∈ events, p.message.IsEncodable) (hm : m ∈ deltas now events) :
    m.message.IsEncodable := by
  induction events generalizing now with
  | nil => cases hm
  | cons p rest ih =>
      rw [List.forall_mem_cons] at hevents
      rcases List.mem_cons.1 hm with rfl | hm
      · exact hevents.1
      · exact ih hevents.2 hm

theorem isEncodable_of_mem_placed {events : List Event} {p : Placed} (hp : p ∈ placed events) :
    p.message.IsEncodable := by
  obtain ⟨e, -, hp⟩ := List.mem_flatMap.1 hp
  rcases List.mem_pair.1 hp with rfl | rfl
  · exact trivial
  · exact trivial

theorem forall_mem_nameMessages_iff {name : String} :
    (∀ m ∈ nameMessages name, m.message.IsEncodable) ↔
      ∀ c ∈ name.toList, Charset.latin1.has c := by
  unfold nameMessages
  split
  · next hempty =>
    have hnil : name.toList = [] := by simpa using hempty
    simp [hnil]
  · simp [Message.IsEncodable]

theorem forall_mem_track_iff {name : String} {events : List Event} :
    (∀ m ∈ track name events, m.message.IsEncodable) ↔
      ∀ c ∈ name.toList, Charset.latin1.has c := by
  rw [← forall_mem_nameMessages_iff]
  constructor
  · intro htrack m hm
    exact htrack m (List.mem_append_left _ (List.mem_append_left _ hm))
  · intro hname m hm
    rcases List.mem_append.1 hm with hm | hm
    · rcases List.mem_append.1 hm with hm | hm
      · exact hname m hm
      · refine isEncodable_of_mem_deltas (fun p hp => ?_) hm
        exact isEncodable_of_mem_placed (List.mem_mergeSort.1 hp)
    · rw [List.mem_singleton.1 hm]
      exact trivial

end Midi

/-- The header of a file has room for the tracks, and their names can be written. -/
def Arrangement.IsWritable (a : Arrangement) : Prop :=
  a.tracks.length < 32767 ∧ ∀ t ∈ a.tracks, ∀ c ∈ t.name.val.toList, Charset.latin1.has c

namespace Midi

variable {a : Arrangement} {beatsPerMinute : Decimal.Number} {song : Song}

theorem forall_mem_areRendered_iff {ticksPerBeat : Int} {index : Nat} {parts : List Part}
    {tracks : List (List Timed)} (h : AreRendered ticksPerBeat index parts tracks) :
    (∀ messages ∈ tracks, ∀ m ∈ messages, m.message.IsEncodable) ↔
      ∀ part ∈ parts, ∀ c ∈ part.1.toList, Charset.latin1.has c := by
  induction parts generalizing index tracks with
  | nil =>
      cases h
      simp
  | cons part rest ih =>
      simp only [AreRendered, List.zipIdx_cons, List.forall₂_cons_left_iff] at h
      obtain ⟨_, more, ⟨steps, pieces, -, -, rfl⟩, hmore, rfl⟩ := h
      rw [List.forall_mem_cons, List.forall_mem_cons, forall_mem_track_iff, ih hmore]

theorem isEncodable_of_mem_tempoTrack {message : Message}
    (h : tempoMessage beatsPerMinute = .ok message) :
    ∀ m ∈ tempoTrack message, m.message.IsEncodable := by
  obtain ⟨value, -, htempo⟩ := bind_eq_ok_iff.1 h
  split at htempo
  · rw [← Except.ok.inj htempo]
    simp [tempoTrack, Message.IsEncodable]
  · simp at htempo

/-- The rendering of an arrangement is written as a whole if the arrangement is writable, and only
then. -/
theorem fault_write_render_eq_none_iff
    (h : (render a beatsPerMinute defaultTicksPerBeat).result = .ok song) :
    song.write.fault = none ↔ a.IsWritable := by
  obtain ⟨message, tracks, hmessage, htracks, rfl⟩ := result_render_eq_ok_iff.1 h
  have htempo := isEncodable_of_mem_tempoTrack hmessage
  have hcount : tracks.length = a.tracks.length := by
    rw [htracks.length_eq, Arrangement.score, List.length_map]
  rw [fault_write_eq_none_iff rfl, List.forall_mem_cons, forall_mem_areRendered_iff htracks,
    Arrangement.score, List.forall_mem_map, List.length_cons, hcount]
  exact and_congr Nat.lt_iff_add_one_le.symm (and_iff_right htempo)

end Midi

end Arranger
