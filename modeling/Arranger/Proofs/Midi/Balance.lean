import Arranger.Midi.Message
import Mathlib.Data.Nat.Count

/-!
# Notes that end

In a track as many notes of a pitch end as begin.  A note that lasts for no tick ends before it
begins, since ends come first at one tick, so that the ends are ahead at its tick unless as many
other notes of the pitch sound through.  If the ends are never ahead, then every note that begins
has an end of its own behind it.
-/

namespace Arranger.Midi

/-! ## Ends that are never ahead -/

section Pairing

variable {α : Type} {opens closes : α → Bool} {xs : List α}

/-- From the first element on, no more of them close than open. -/
def NeverAhead (opens closes : α → Bool) (xs : List α) : Prop :=
  ∀ front, front <+: xs → front.countP closes ≤ front.countP opens

/-- Whether an element with the property is at a position. -/
def IsAt (p : α → Bool) (xs : List α) (i : Nat) : Prop := xs[i]?.any p = true

instance (p : α → Bool) (xs : List α) : DecidablePred (IsAt p xs) :=
  fun i => inferInstanceAs (Decidable (xs[i]?.any p = true))

/-- Every element that opens has one that closes behind it, and no two of them have the same. -/
def HasPartners (opens closes : α → Bool) (xs : List α) : Prop :=
  ∃ partner : Nat → Nat, Set.InjOn partner {i | IsAt opens xs i} ∧
    ∀ i, IsAt opens xs i → i < partner i ∧ IsAt closes xs (partner i)

theorem count_isAt (p : α → Bool) (xs : List α) (k : Nat) :
    Nat.count (IsAt p xs) k = (xs.take k).countP p := by
  induction k with
  | zero => simp
  | succ k ih =>
      rw [Nat.count_succ, ih, List.take_add_one, List.countP_append]
      rcases hx : xs[k]? with _ | x
      · simp [IsAt, hx]
      · simp [IsAt, hx, List.countP_singleton]

theorem exists_of_lt_count {p : Nat → Prop} [DecidablePred p] {n m : Nat}
    (h : n < Nat.count p m) : ∃ k < m, p k ∧ Nat.count p k = n := by
  induction m with
  | zero => simp at h
  | succ m ih =>
      rw [Nat.count_succ] at h
      by_cases hm : n < Nat.count p m
      · obtain ⟨k, hk, hpk, hcount⟩ := ih hm
        exact ⟨k, by omega, hpk, hcount⟩
      · by_cases hpm : p m
        · rw [if_pos hpm] at h
          exact ⟨m, by omega, hpm, by omega⟩
        · rw [if_neg hpm] at h
          omega

/-- The elements that open and those that close are paired in the order in which they come. -/
theorem NeverAhead.hasPartners (h : NeverAhead opens closes xs)
    (htotal : xs.countP closes = xs.countP opens)
    (hdisjoint : ∀ x, opens x = true → closes x = false) : HasPartners opens closes xs := by
  have hpartner : ∀ i, IsAt opens xs i →
      ∃ k, i < k ∧ IsAt closes xs k ∧ Nat.count (IsAt closes xs) k = Nat.count (IsAt opens xs) i := by
    intro i hi
    have hlength : i < xs.length := by
      by_contra hlong
      simp [IsAt, List.getElem?_eq_none (Nat.le_of_not_lt hlong)] at hi
    have hcount : Nat.count (IsAt opens xs) i < Nat.count (IsAt closes xs) xs.length := by
      have hless := Nat.count_strict_mono hi hlength
      rw [count_isAt opens xs xs.length, List.take_length, ← htotal] at hless
      rwa [count_isAt closes xs xs.length, List.take_length]
    -- the partner has as many closing elements in front of it as the element has opening ones
    obtain ⟨k, -, hk, heq⟩ := exists_of_lt_count hcount
    refine ⟨k, ?_, hk, heq⟩
    by_contra hle
    have hne : k ≠ i := by
      rintro rfl
      obtain ⟨x, hx, hopens⟩ := Option.any_eq_true _ _ |>.1 hi
      obtain ⟨y, hy, hcloses⟩ := Option.any_eq_true _ _ |>.1 hk
      rw [hx] at hy
      rw [← Option.some.inj hy, hdisjoint x hopens] at hcloses
      cases hcloses
    have hless := Nat.count_strict_mono hk (show k < i by omega)
    have hahead := h (xs.take i) (List.take_prefix i xs)
    rw [← count_isAt, ← count_isAt] at hahead
    omega
  choose! partner hbehind hcloses hcount using hpartner
  refine ⟨partner, ?_, fun i hi => ⟨hbehind i hi, hcloses i hi⟩⟩
  intro i hi j hj heq
  have hsame : Nat.count (IsAt opens xs) i = Nat.count (IsAt opens xs) j := by
    rw [← hcount i hi, ← hcount j hj, heq]
  exact Nat.count_injective (p := IsAt opens xs) hi hj hsame

theorem takeWhile_eq_filter {p : α → Bool}
    (hxs : xs.Pairwise fun x y => p y = true → p x = true) : xs.takeWhile p = xs.filter p := by
  induction xs with
  | nil => rfl
  | cons x rest ih =>
      obtain ⟨hx, hrest⟩ := List.pairwise_cons.1 hxs
      cases hp : p x with
      | true => rw [List.takeWhile_cons_of_pos hp, List.filter_cons_of_pos hp, ih hrest]
      | false =>
          have hnone : ∀ y ∈ rest, ¬p y = true := by
            intro y hy hpy
            rw [hx y hy hpy] at hp
            cases hp
          rw [List.takeWhile_cons_of_neg (by simp [hp]), List.filter_cons_of_neg (by simp [hp]),
            List.filter_eq_nil_iff.2 hnone]

/-- Elements that neither open nor close do not count. -/
theorem neverAhead_append_iff {silent more : List α}
    (hsilent : ∀ x ∈ silent, opens x = false ∧ closes x = false)
    (hmore : ∀ x ∈ more, opens x = false ∧ closes x = false) :
    NeverAhead opens closes (silent ++ xs ++ more) ↔ NeverAhead opens closes xs := by
  have hcount : ∀ front : List α, (∀ x ∈ front, opens x = false ∧ closes x = false) →
      front.countP opens = 0 ∧ front.countP closes = 0 := by
    intro front hfront
    simp only [List.countP_eq_zero]
    exact ⟨fun x hx => by simp [(hfront x hx).1], fun x hx => by simp [(hfront x hx).2]⟩
  constructor
  · intro h front hfront
    have hahead := h (silent ++ front) (((List.prefix_append_right_inj _).2 hfront).trans
      (List.prefix_append _ _))
    obtain ⟨hopens, hcloses⟩ := hcount silent hsilent
    rwa [List.countP_append, List.countP_append, hopens, hcloses, Nat.zero_add,
      Nat.zero_add] at hahead
  · intro h front hfront
    obtain ⟨k, rfl⟩ : ∃ k, front = (silent ++ xs ++ more).take k :=
      ⟨front.length, (List.prefix_iff_eq_take.1 hfront)⟩
    obtain ⟨hopens, hcloses⟩ := hcount (silent.take k) fun x hx =>
      hsilent x (List.mem_of_mem_take hx)
    obtain ⟨hopens', hcloses'⟩ := hcount (more.take (k - (silent ++ xs).length)) fun x hx =>
      hmore x (List.mem_of_mem_take hx)
    have hahead := h (xs.take (k - silent.length)) (List.take_prefix _ _)
    simp only [List.take_append, List.countP_append]
    omega

end Pairing

/-! ## Notes of one pitch -/

variable {channel : Channel} {pitch : Pitch} {events : List Event} {ps : List Placed}

/-- A note of the pitch begins on the channel. -/
def Message.begins (channel : Channel) (pitch : Pitch) : Message → Bool
  | .noteOn c p _ => c = channel && p = pitch
  | _ => false

/-- A note of the pitch ends on the channel. -/
def Message.ends (channel : Channel) (pitch : Pitch) : Message → Bool
  | .noteOff c p _ => c = channel && p = pitch
  | _ => false

theorem ends_eq_false_of_begins {m : Message} (h : m.begins channel pitch = true) :
    m.ends channel pitch = false := by
  cases m with
  | noteOn c p v => rfl
  | _ => cases h

namespace Event

def isOf (channel : Channel) (pitch : Pitch) (e : Event) : Bool :=
  e.channel = channel && e.pitch = pitch

/-- The note lasts for no tick, at this one. -/
def isInstant (channel : Channel) (pitch : Pitch) (tick : Nat) (e : Event) : Bool :=
  e.isOf channel pitch && (e.start = tick && e.stop = tick)

/-- The note begins before the tick and ends after it. -/
def soundsThrough (channel : Channel) (pitch : Pitch) (tick : Nat) (e : Event) : Bool :=
  e.isOf channel pitch && (e.start < tick && tick < e.stop)

def beginsBefore (channel : Channel) (pitch : Pitch) (tick : Nat) (e : Event) : Bool :=
  e.isOf channel pitch && e.start < tick

def endsBy (channel : Channel) (pitch : Pitch) (tick : Nat) (e : Event) : Bool :=
  e.isOf channel pitch && e.stop ≤ tick

theorem start_le_stop (e : Event) : e.start ≤ e.stop := Nat.le_add_right _ _

end Event

/-- A note has ended by a tick or sounds through, if it has begun before or lasts for no tick. -/
theorem countP_endsBy_add (channel : Channel) (pitch : Pitch) (tick : Nat) (events : List Event) :
    events.countP (·.endsBy channel pitch tick) +
        events.countP (·.soundsThrough channel pitch tick) =
      events.countP (·.beginsBefore channel pitch tick) +
        events.countP (·.isInstant channel pitch tick) := by
  induction events with
  | nil => rfl
  | cons e rest ih =>
      have hle := e.start_le_stop
      simp only [List.countP_cons, Event.endsBy, Event.soundsThrough, Event.beginsBefore,
        Event.isInstant] at ih ⊢
      cases e.isOf channel pitch with
      | false => simpa using ih
      | true =>
          simp only [Bool.true_and, decide_eq_true_eq, Bool.and_eq_true]
          split_ifs <;> omega

/-- A message for the beginning of each note is among the sorted messages, and one for its end. -/
theorem countP_sorted (q : Placed → Bool) (events : List Event) :
    (sorted events).countP q =
      events.countP (fun e => q (.on e)) + events.countP fun e => q (.off e) := by
  rw [sorted, (List.mergeSort_perm _ _).countP_eq q]
  induction events with
  | nil => rfl
  | cons e rest ih =>
      have hcons : placed (e :: rest) = .on e :: .off e :: placed rest := rfl
      rw [hcons, List.countP_cons, List.countP_cons, ih, List.countP_cons, List.countP_cons]
      omega

namespace Placed

variable {p q : Placed} {tick : Nat}

def endsBy (channel : Channel) (pitch : Pitch) (tick : Nat) (p : Placed) : Bool :=
  p.message.ends channel pitch && p.tick ≤ tick

def beginsBefore (channel : Channel) (pitch : Pitch) (tick : Nat) (p : Placed) : Bool :=
  p.message.begins channel pitch && p.tick < tick

/-- The message comes before the first one that begins a note at the tick. -/
def isThrough (tick : Nat) (p : Placed) : Bool := p.tick < tick || (p.tick = tick && !p.isOn)

/-- The message is one of a note, and it is told apart whether the note begins or ends. -/
def IsNote (p : Placed) : Prop :=
  ∀ channel pitch, (p.message.begins channel pitch = true → p.isOn = true) ∧
    (p.message.ends channel pitch = true → p.isOn = false)

theorem isNote_on (e : Event) : (on e).IsNote :=
  fun _ _ => ⟨fun _ => rfl, fun h => by cases h⟩

theorem isNote_off (e : Event) : (off e).IsNote :=
  fun _ _ => ⟨fun h => (by cases h), fun _ => rfl⟩

theorem precedes_iff :
    p.precedes q = true ↔
      p.tick < q.tick ∨ p.tick = q.tick ∧ (p.isOn = true → q.isOn = true) := by
  simp only [precedes, Bool.or_eq_true, Bool.and_eq_true, decide_eq_true_eq, Bool.not_eq_true']
  cases p.isOn <;> simp

theorem precedes_trans {r : Placed} (hpq : p.precedes q = true) (hqr : q.precedes r = true) :
    p.precedes r = true := by
  rw [precedes_iff] at hpq hqr ⊢
  rcases hpq with hpq | ⟨hpq, hon⟩
  · left
    omega
  · rcases hqr with hqr | ⟨hqr, hon'⟩
    · left
      omega
    · exact Or.inr ⟨hpq.trans hqr, fun h => hon' (hon h)⟩

theorem precedes_total (p q : Placed) : (p.precedes q || q.precedes p) = true := by
  rw [Bool.or_eq_true, precedes_iff, precedes_iff]
  rcases Nat.lt_trichotomy p.tick q.tick with hless | hsame | hmore
  · exact Or.inl (Or.inl hless)
  · cases hon : p.isOn with
    | false => exact Or.inl (Or.inr ⟨hsame, fun h => by cases h⟩)
    | true => exact Or.inr (Or.inr ⟨hsame.symm, fun _ => rfl⟩)
  · exact Or.inr (Or.inl hmore)

theorem tick_le_of_precedes (h : p.precedes q = true) : p.tick ≤ q.tick := by
  rw [precedes_iff] at h
  omega

theorem isThrough_iff :
    p.isThrough tick = true ↔ p.tick < tick ∨ p.tick = tick ∧ p.isOn = false := by
  simp [isThrough]

theorem isThrough_of_precedes (h : p.precedes q = true) (hq : q.isThrough tick = true) :
    p.isThrough tick = true := by
  rw [precedes_iff] at h
  rw [isThrough_iff] at hq ⊢
  rcases h with hless | ⟨hsame, hon⟩
  · left
    omega
  · rcases hq with hq | ⟨hq, hoff⟩
    · left
      omega
    · refine Or.inr ⟨hsame.trans hq, ?_⟩
      cases hp : p.isOn with
      | false => rfl
      | true =>
          rw [hon hp] at hoff
          cases hoff

end Placed

theorem isNote_of_mem_sorted {p : Placed} (hp : p ∈ sorted events) : p.IsNote := by
  obtain ⟨e, -, hp⟩ := List.mem_flatMap.1 (List.mem_mergeSort.1 hp)
  rcases List.mem_pair.1 hp with rfl | rfl
  · exact Placed.isNote_on e
  · exact Placed.isNote_off e

theorem pairwise_sorted (events : List Event) :
    (sorted events).Pairwise fun p q => p.precedes q = true := by
  have htrans : ∀ p q r : Placed, p.precedes q = true → q.precedes r = true →
      p.precedes r = true := fun _ _ _ => Placed.precedes_trans
  exact List.pairwise_mergeSort htrans Placed.precedes_total _

/-! ## The order of the messages -/

/-- Up to the ends at a tick, those notes have ended that end by it, and those have begun that begin
before it. -/
theorem countP_takeWhile_isThrough (channel : Channel) (pitch : Pitch) (tick : Nat)
    (hps : ps.Pairwise fun p q => p.precedes q = true) (hnotes : ∀ p ∈ ps, p.IsNote) :
    (ps.takeWhile (·.isThrough tick)).countP (·.message.ends channel pitch) =
        ps.countP (·.endsBy channel pitch tick) ∧
      (ps.takeWhile (·.isThrough tick)).countP (·.message.begins channel pitch) =
        ps.countP (·.beginsBefore channel pitch tick) := by
  have hfilter : ps.takeWhile (·.isThrough tick) = ps.filter (·.isThrough tick) :=
    takeWhile_eq_filter (hps.imp Placed.isThrough_of_precedes)
  rw [hfilter, List.countP_filter, List.countP_filter]
  constructor
  · apply List.countP_congr
    intro p hp
    simp only [Placed.endsBy, Bool.and_eq_true, Placed.isThrough_iff, decide_eq_true_eq]
    refine and_congr_right fun hends => ?_
    have hoff := (hnotes p hp channel pitch).2 hends
    simp only [hoff, and_true]
    omega
  · apply List.countP_congr
    intro p hp
    simp only [Placed.beginsBefore, Bool.and_eq_true, Placed.isThrough_iff, decide_eq_true_eq]
    refine and_congr_right fun hbegins => ?_
    have hon := (hnotes p hp channel pitch).1 hbegins
    simp [hon]

/-- At any place, the notes that have ended have ended by the tick of the message before it, and
all have begun that begin before this tick. -/
theorem exists_tick_of_append {front rest : List Placed} {last : Placed}
    (hps : (front ++ last :: rest).Pairwise fun p q => p.precedes q = true) (channel : Channel)
    (pitch : Pitch) :
    (front ++ [last]).countP (·.message.ends channel pitch) ≤
        (front ++ last :: rest).countP (·.endsBy channel pitch last.tick) ∧
      (front ++ last :: rest).countP (·.beginsBefore channel pitch last.tick) ≤
        (front ++ [last]).countP (·.message.begins channel pitch) := by
  obtain ⟨-, hbehind, hbefore⟩ := List.pairwise_append.1 hps
  have hsplit : ∀ q : Placed → Bool,
      (front ++ last :: rest).countP q = (front ++ [last]).countP q + rest.countP q := by
    intro q
    rw [← List.countP_append, List.append_assoc]
    rfl
  rw [hsplit, hsplit]
  constructor
  · have hle : (front ++ [last]).countP (·.message.ends channel pitch) ≤
        (front ++ [last]).countP (·.endsBy channel pitch last.tick) := by
      apply List.countP_mono_left
      intro p hp hends
      have htick : p.tick ≤ last.tick := by
        rcases List.mem_append.1 hp with hp | hp
        · exact Placed.tick_le_of_precedes (hbefore p hp last List.mem_cons_self)
        · rw [List.mem_singleton.1 hp]
      simp [Placed.endsBy, hends, htick]
    omega
  · have hnone : rest.countP (·.beginsBefore channel pitch last.tick) = 0 := by
      rw [List.countP_eq_zero]
      intro p hp
      have htick := Placed.tick_le_of_precedes ((List.pairwise_cons.1 hbehind).1 p hp)
      simp only [Placed.beginsBefore, Bool.and_eq_true, decide_eq_true_eq]
      omega
    rw [hnone, Nat.add_zero]
    apply List.countP_mono_left
    intro p _ hbegins
    exact (Bool.and_eq_true_iff.1 hbegins).1

theorem neverAhead_map_message_iff (channel : Channel) (pitch : Pitch)
    (hps : ps.Pairwise fun p q => p.precedes q = true) (hnotes : ∀ p ∈ ps, p.IsNote) :
    NeverAhead (·.begins channel pitch) (·.ends channel pitch) (ps.map Placed.message) ↔
      ∀ tick, ps.countP (·.endsBy channel pitch tick) ≤
        ps.countP (·.beginsBefore channel pitch tick) := by
  constructor
  · intro h tick
    have hahead := h _ ((List.takeWhile_prefix (·.isThrough tick)).map Placed.message)
    obtain ⟨hends, hbegins⟩ := countP_takeWhile_isThrough channel pitch tick hps hnotes
    rw [List.countP_map, List.countP_map] at hahead
    rw [← hends, ← hbegins]
    exact hahead
  · intro h front hfront
    obtain ⟨size, rfl⟩ : ∃ size, front = (ps.take size).map Placed.message := by
      refine ⟨front.length, ?_⟩
      rw [List.map_take]
      exact List.prefix_iff_eq_take.1 hfront
    rw [List.countP_map, List.countP_map]
    rcases List.eq_nil_or_concat (ps.take size) with hnil | ⟨before, last, hlast⟩
    · rw [hnil]
      rfl
    · rw [List.concat_eq_append] at hlast
      have hwhole : ps = before ++ last :: ps.drop size := by
        conv_lhs => rw [← List.take_append_drop size ps, hlast]
        simp
      rw [hwhole] at hps
      obtain ⟨hends, hbegins⟩ := exists_tick_of_append hps channel pitch
      rw [← hwhole] at hends hbegins
      rw [hlast]
      exact (hends.trans (h last.tick)).trans hbegins

/-! ## Tracks -/

theorem map_message_deltas (now : Nat) (ps : List Placed) :
    (deltas now ps).map Timed.message = ps.map Placed.message := by
  induction ps generalizing now with
  | nil => rfl
  | cons p rest ih => simp [deltas, ih]

theorem map_message_track (name : String) (events : List Event) :
    (track name events).map Timed.message =
      (nameMessages name).map Timed.message ++ (sorted events).map Placed.message ++
        [.endOfTrack] := by
  simp [track, map_message_deltas]

theorem not_begins_of_mem_nameMessages {name : String} {m : Message}
    (hm : m ∈ (nameMessages name).map Timed.message) :
    m.begins channel pitch = false ∧ m.ends channel pitch = false := by
  obtain ⟨t, ht, rfl⟩ := List.mem_map.1 hm
  unfold nameMessages at ht
  split at ht
  · cases ht
  · rw [List.mem_singleton.1 ht]
    exact ⟨rfl, rfl⟩

theorem neverAhead_track_iff (name : String) (events : List Event) (channel : Channel)
    (pitch : Pitch) :
    NeverAhead (·.begins channel pitch) (·.ends channel pitch)
        ((track name events).map Timed.message) ↔
      ∀ tick, events.countP (·.isInstant channel pitch tick) ≤
        events.countP (·.soundsThrough channel pitch tick) := by
  have hends : ∀ tick, (sorted events).countP (·.endsBy channel pitch tick) =
      events.countP (·.endsBy channel pitch tick) := by
    intro tick
    rw [countP_sorted]
    have hnone : events.countP (fun e => (Placed.on e).endsBy channel pitch tick) = 0 :=
      List.countP_eq_zero.2 fun e _ => Bool.false_ne_true
    rw [hnone, Nat.zero_add]
    rfl
  have hbegins : ∀ tick, (sorted events).countP (·.beginsBefore channel pitch tick) =
      events.countP (·.beginsBefore channel pitch tick) := by
    intro tick
    rw [countP_sorted]
    have hnone : events.countP (fun e => (Placed.off e).beginsBefore channel pitch tick) = 0 :=
      List.countP_eq_zero.2 fun e _ => Bool.false_ne_true
    rw [hnone, Nat.add_zero]
    rfl
  rw [map_message_track, neverAhead_append_iff (fun _ => not_begins_of_mem_nameMessages)
    (fun m hm => by rw [List.mem_singleton.1 hm]; exact ⟨rfl, rfl⟩),
    neverAhead_map_message_iff channel pitch (pairwise_sorted events)
      fun _ => isNote_of_mem_sorted]
  refine forall_congr' fun tick => ?_
  rw [hends, hbegins]
  have hsum := countP_endsBy_add channel pitch tick events
  omega

theorem countP_map_message_track {q : Message → Bool} {name : String}
    (hname : ∀ m ∈ (nameMessages name).map Timed.message, q m = false)
    (hend : q .endOfTrack = false) (events : List Event) :
    ((track name events).map Timed.message).countP q =
      events.countP (fun e => q (Placed.on e).message) +
        events.countP fun e => q (Placed.off e).message := by
  have hsilent : ((nameMessages name).map Timed.message).countP q = 0 :=
    List.countP_eq_zero.2 fun m hm => by simp [hname m hm]
  have hlast : [Message.endOfTrack].countP q = 0 := by simp [hend]
  rw [map_message_track, List.countP_append, List.countP_append, hsilent, hlast, List.countP_map,
    Nat.zero_add, Nat.add_zero]
  exact countP_sorted (q ∘ Placed.message) events

/-- Each event begins a note of its pitch and ends one. -/
theorem countP_track (name : String) (events : List Event) (channel : Channel) (pitch : Pitch) :
    ((track name events).map Timed.message).countP (·.begins channel pitch) =
        events.countP (·.isOf channel pitch) ∧
      ((track name events).map Timed.message).countP (·.ends channel pitch) =
        events.countP (·.isOf channel pitch) := by
  constructor
  · rw [countP_map_message_track (fun m hm => (not_begins_of_mem_nameMessages hm).1) rfl]
    have hnone : events.countP (fun e => (Placed.off e).message.begins channel pitch) = 0 :=
      List.countP_eq_zero.2 fun e _ => Bool.false_ne_true
    rw [hnone, Nat.add_zero]
    rfl
  · rw [countP_map_message_track (fun m hm => (not_begins_of_mem_nameMessages hm).2) rfl]
    have hnone : events.countP (fun e => (Placed.on e).message.ends channel pitch) = 0 :=
      List.countP_eq_zero.2 fun e _ => Bool.false_ne_true
    rw [hnone, Nat.zero_add]
    rfl

/-- In every track, as many notes of a pitch end as begin.  The ends are never ahead exactly if at
every tick as many other notes of the pitch sound through as there are notes that last for no tick,
and then every note that begins has an end of its own behind it. -/
theorem ends_of_track (name : String) (events : List Event) (channel : Channel) (pitch : Pitch) :
    let messages := (track name events).map Timed.message
    messages.countP (·.ends channel pitch) = messages.countP (·.begins channel pitch) ∧
      (NeverAhead (·.begins channel pitch) (·.ends channel pitch) messages ↔
        ∀ tick, events.countP (·.isInstant channel pitch tick) ≤
          events.countP (·.soundsThrough channel pitch tick)) ∧
      (NeverAhead (·.begins channel pitch) (·.ends channel pitch) messages →
        HasPartners (·.begins channel pitch) (·.ends channel pitch) messages) := by
  intro messages
  obtain ⟨hbegins, hends⟩ := countP_track name events channel pitch
  have htotal : messages.countP (·.ends channel pitch) = messages.countP (·.begins channel pitch) :=
    hends.trans hbegins.symm
  refine ⟨htotal, neverAhead_track_iff name events channel pitch, ?_⟩
  intro hnever
  exact hnever.hasPartners htotal fun m => ends_eq_false_of_begins

/-- Notes that last leave nothing sounding. -/
theorem neverAhead_track_of_duration_pos {events : List Event} (h : ∀ e ∈ events, 0 < e.duration)
    (name : String) (channel : Channel) (pitch : Pitch) :
    NeverAhead (·.begins channel pitch) (·.ends channel pitch)
      ((track name events).map Timed.message) := by
  rw [neverAhead_track_iff]
  intro tick
  have hnone : events.countP (·.isInstant channel pitch tick) = 0 := by
    rw [List.countP_eq_zero]
    intro e he
    have hpos := h e he
    simp only [Event.isInstant, Bool.and_eq_true, decide_eq_true_eq]
    rintro ⟨-, hstart, hstop⟩
    unfold Event.stop at hstop
    omega
  omega

/-- A note that lasts for no tick. -/
def instantNote : Event := ⟨60, 0, 0, 100, 0⟩

/-- The end of the note comes first, and the note that begins then has no end behind it. -/
theorem instantNote_ends_before_it_begins :
    ¬NeverAhead (·.begins 0 60) (·.ends 0 60) ((track "" [instantNote]).map Timed.message) ∧
      (track "" [instantNote]).map Timed.message =
        [.noteOff 0 60 0, .noteOn 0 60 100, .endOfTrack] := by
  have hmessages : (track "" [instantNote]).map Timed.message =
      [.noteOff 0 60 0, .noteOn 0 60 100, .endOfTrack] := by
    have hsorted : sorted [instantNote] = [.off instantNote, .on instantNote] := by
      have horder : (Placed.on instantNote).precedes (.off instantNote) = false := rfl
      simp [sorted, placed, List.mergeSort, horder]
    rw [map_message_track, hsorted]
    rfl
  refine ⟨?_, hmessages⟩
  rw [hmessages]
  intro hnever
  have hfirst := hnever [.noteOff 0 60 0] ⟨[.noteOn 0 60 100, .endOfTrack], rfl⟩
  exact absurd hfirst (by decide)

end Arranger.Midi
