import Arranger.Proofs.Midi.Balance
import Arranger.Proofs.StableSort
import Mathlib

/-!
# The ticks of messages

A message of a track tells the ticks since its predecessor, and its own tick is the sum of them up
to it.  The messages for notes stand at the ticks of the events, sorted stably, whatever order the
events come in: no difference of ticks is cut off at zero.  The end of the track stands at the tick
of the last of them.
-/

namespace Arranger.Midi

/-! ## Ticks from differences -/

/-- The messages of a track with their ticks, from a tick on. -/
def absolute : Nat → List Timed → List (Nat × Message)
  | _, [] => []
  | now, t :: rest => (now + t.delta, t.message) :: absolute (now + t.delta) rest

variable {now : Nat} {ps : List Placed} {events other : List Event}

theorem absolute_append (now : Nat) (s t : List Timed) :
    absolute now (s ++ t) = absolute now s ++ absolute (now + (s.map Timed.delta).sum) t := by
  induction s generalizing now with
  | nil => rfl
  | cons m rest ih => simp [absolute, ih, Nat.add_assoc]

def Placed.entry (p : Placed) : Nat × Message := (p.tick, p.message)

section Ascending

variable (hnow : ∀ p ∈ ps, now ≤ p.tick) (hps : ps.Pairwise fun p q => p.tick ≤ q.tick)

include hnow hps

theorem absolute_deltas : absolute now (deltas now ps) = ps.map Placed.entry := by
  induction ps generalizing now with
  | nil => rfl
  | cons p rest ih =>
      obtain ⟨hp, hrest⟩ := List.pairwise_cons.1 hps
      have htick : now + (p.tick - now) = p.tick :=
        Nat.add_sub_of_le (hnow p List.mem_cons_self)
      rw [deltas, absolute, htick, ih hp hrest, List.map_cons, Placed.entry]

/-- Behind the messages the ticks have added up to that of the last one. -/
theorem add_sum_deltas :
    now + ((deltas now ps).map Timed.delta).sum = (ps.getLast?.map Placed.tick).getD now := by
  induction ps generalizing now with
  | nil => rfl
  | cons p rest ih =>
      obtain ⟨hp, hrest⟩ := List.pairwise_cons.1 hps
      have htick : now + (p.tick - now) = p.tick :=
        Nat.add_sub_of_le (hnow p List.mem_cons_self)
      rw [deltas, List.map_cons, List.sum_cons, ← Nat.add_assoc, htick, ih hp hrest,
        List.getLast?_cons]
      cases rest.getLast? <;> rfl

end Ascending

/-! ## The messages of events -/

def Message.isNote : Message → Bool
  | .noteOn _ _ _ => true
  | .noteOff _ _ _ => true
  | _ => false

def Message.isNoteOff : Message → Bool
  | .noteOff _ _ _ => true
  | _ => false

/-- Messages are sorted by their ticks, and at one tick the ends of notes come first. -/
def rank (m : Nat × Message) : Nat ×ₗ Bool := toLex (m.1, !m.2.isNoteOff)

/-- The two messages of a note: it begins, and it ends when its duration is over. -/
def Event.messages (e : Event) : List (Nat × Message) :=
  [(e.start, .noteOn e.channel e.pitch e.velocity),
    (e.start + e.duration, .noteOff e.channel e.pitch 0)]

theorem map_entry_placed (events : List Event) :
    (placed events).map Placed.entry = events.flatMap Event.messages := by
  rw [placed, List.map_flatMap]
  rfl

theorem isOn_eq_of_mem_placed {p : Placed} (hp : p ∈ placed events) :
    p.isOn = !p.message.isNoteOff ∧ p.message.isNote = true := by
  obtain ⟨e, -, hp⟩ := List.mem_flatMap.1 hp
  rcases List.mem_pair.1 hp with rfl | rfl
  · exact ⟨rfl, rfl⟩
  · exact ⟨rfl, rfl⟩

theorem precedes_eq_decide_rank
    {p q : Placed} (hp : p ∈ placed events) (hq : q ∈ placed events) :
    p.precedes q = decide (rank p.entry ≤ rank q.entry) := by
  rw [Bool.eq_iff_iff, Placed.precedes_iff, decide_eq_true_eq, rank, rank, Prod.Lex.le_iff]
  simp only [Placed.entry, ofLex_toLex, ← (isOn_eq_of_mem_placed hp).1,
    ← (isOn_eq_of_mem_placed hq).1, Bool.le_iff_imp]

theorem map_entry_sorted (events : List Event) :
    (sorted events).map Placed.entry =
      (events.flatMap Event.messages).mergeSort fun m n => rank m ≤ rank n := by
  rw [← map_entry_placed]
  exact List.map_mergeSort fun p hp q hq => precedes_eq_decide_rank hp hq

/-! ## The end of a track -/

/-- The tick of the last message, or of the beginning if there is none. -/
def lastTick (ms : List (Nat × Message)) : Nat := (ms.getLast?.map Prod.fst).getD 0

theorem lastTick_eq_foldr
    {ms : List (Nat × Message)} (h : ms.Pairwise fun m n => m.1 ≤ n.1) :
    lastTick ms = (ms.map Prod.fst).foldr max 0 := by
  induction ms with
  | nil => rfl
  | cons m rest ih =>
      obtain ⟨hm, hrest⟩ := List.pairwise_cons.1 h
      rw [List.map_cons, List.foldr_cons, ← ih hrest, lastTick, lastTick, List.getLast?_cons]
      cases hlast : rest.getLast? with
      | none => simp
      | some last => simpa using hm last (List.mem_of_getLast? hlast)

theorem pairwise_tick_sorted (events : List Event) :
    (sorted events).Pairwise fun p q => p.tick ≤ q.tick :=
  (pairwise_sorted events).imp Placed.tick_le_of_precedes

theorem perm_sorted (h : other.Perm events) : (sorted other).Perm (sorted events) := by
  have hplaced : (placed other).Perm (placed events) := h.flatMap_right _
  exact ((List.mergeSort_perm _ _).trans hplaced).trans (List.mergeSort_perm _ _).symm

theorem lastTick_sorted_congr (h : other.Perm events) :
    lastTick ((sorted other).map Placed.entry) = lastTick ((sorted events).map Placed.entry) := by
  have hascending : ∀ es : List Event,
      ((sorted es).map Placed.entry).Pairwise fun m n => m.1 ≤ n.1 := fun es =>
    List.pairwise_map.2 (pairwise_tick_sorted es)
  rw [lastTick_eq_foldr (hascending other), lastTick_eq_foldr (hascending events)]
  exact (((perm_sorted h).map Placed.entry).map Prod.fst).foldr_eq 0

/-- The message with the name of a track, if it has one. -/
def nameEntry (name : String) : List (Nat × Message) :=
  if name = "" then [] else [(0, .trackName name)]

theorem absolute_track_eq (name : String) (events : List Event) :
    absolute 0 (track name events) =
      nameEntry name ++ (sorted events).map Placed.entry ++
        [(lastTick ((sorted events).map Placed.entry), .endOfTrack)] := by
  have hname : absolute 0 (nameMessages name) = nameEntry name ∧
      ((nameMessages name).map Timed.delta).sum = 0 := by
    by_cases hempty : name = ""
    · simp [nameMessages, nameEntry, hempty, absolute]
    · simp [nameMessages, nameEntry, hempty, absolute]
  have hnow : ∀ p ∈ sorted events, 0 ≤ p.tick := fun _ _ => Nat.zero_le _
  have hticks := pairwise_tick_sorted events
  have hend := add_sum_deltas hnow hticks
  have hlast : lastTick ((sorted events).map Placed.entry) =
      ((sorted events).getLast?.map Placed.tick).getD 0 := by
    rw [lastTick, List.getLast?_map, Option.map_map]
    rfl
  rw [track, absolute_append, absolute_append, hname.1, hname.2, absolute_deltas hnow hticks,
    hlast, ← hend]
  simp [absolute, hname.2]

/-- In every track, the messages for notes are the stable sort of the messages of the events.
Besides them there is the name of the track in front, if it has one, and the end behind, at the tick
of the last of them.  Events in another order give the same messages at the same ticks. -/
theorem absolute_track (name : String) (events : List Event) :
    let messages := absolute 0 (track name events)
    let notes := messages.filter (·.2.isNote)
    messages = nameEntry name ++ notes ++ [(lastTick notes, .endOfTrack)] ∧
      (∀ ms, IsStableSort rank (events.flatMap Event.messages) ms ↔ ms = notes) ∧
        ∀ other : List Event, other.Perm events →
          (absolute 0 (track name other)).Perm messages := by
  intro messages notes
  have hmessages : messages = _ := absolute_track_eq name events
  have hnotes : notes = (sorted events).map Placed.entry := by
    have hname : (nameEntry name).filter (·.2.isNote) = [] := by
      unfold nameEntry
      split <;> rfl
    have hall : ((sorted events).map Placed.entry).filter (·.2.isNote) =
        (sorted events).map Placed.entry := by
      rw [List.filter_eq_self]
      intro m hm
      obtain ⟨p, hp, rfl⟩ := List.mem_map.1 hm
      exact (isOn_eq_of_mem_placed (List.mem_mergeSort.1 hp)).2
    change messages.filter (·.2.isNote) = _
    rw [hmessages, List.filter_append, List.filter_append, hname, hall]
    simp [Message.isNote]
  refine ⟨by rw [hnotes, hmessages], fun ms => ?_, fun other hother => ?_⟩
  · rw [hnotes, map_entry_sorted]
    exact isStableSort_iff
  · rw [hmessages, absolute_track_eq, lastTick_sorted_congr hother]
    exact (((perm_sorted hother).map _).append_left _).append_right _

/-- A note that is struck again when it ends, the later one first, and one of the same pitch that
sounds through on another channel. -/
def crossingNotes : List Event :=
  [⟨60, 480, 480, 100, Fin.last 15⟩, ⟨60, 0, 960, 90, (Fin.last 14).castSucc⟩,
    ⟨60, 0, 480, 100, Fin.last 15⟩]

theorem absolute_track_crossingNotes :
    crossingNotes.reverse.Perm crossingNotes ∧
      (absolute 0 (track "lead" crossingNotes.reverse)).Perm
        (absolute 0 (track "lead" crossingNotes)) :=
  have hother : crossingNotes.reverse.Perm crossingNotes := List.reverse_perm crossingNotes
  ⟨hother, (absolute_track "lead" crossingNotes).2.2 crossingNotes.reverse hother⟩

end Arranger.Midi
