import Arranger.Proofs.Midi.Verdict

/-!
# Time that runs forward

Durations that are not negative lead to positions that are not before the ones they begin at, and
neither are the ticks of these positions.  On a clock with this property no event lies outside the
ranges of its fields, and the events of a track begin in the order in which they are played.  Two
clocks have it: one that counts beats exactly, and the one that renders, which rounds every sum.
-/

namespace Arranger

open Decimal (IsUnsigned exactValue? roundHalfEven)

namespace Midi

variable {τ δ : Type}

/-! ## Clocks -/

/-- From reached positions the allowed durations lead forward, and the ticks of reached positions
are in the order of the positions, from zero on. -/
structure Clock.RunsForward (clock : Clock τ δ) (Allowed : δ → Prop) (Reached : τ → Prop)
    (UpTo : τ → τ → Prop) : Prop where
  refl {p : τ} (hp : Reached p) : UpTo p p
  trans {p q r : τ} (hpq : UpTo p q) (hqr : UpTo q r) : UpTo p r
  advance {p q : τ} {d : δ} (hp : Reached p) (hd : Allowed d) (hq : clock.advance p d = .ok q) :
    Reached q ∧ UpTo p q
  ticks {p q : τ} {s t : Int} (hp : Reached p) (hq : Reached q) (hpq : UpTo p q)
    (hs : clock.ticks p = .ok s) (ht : clock.ticks q = .ok t) : 0 ≤ s ∧ s ≤ t

/-- The clock cannot go on from a reached position. -/
inductive Clock.Stops (clock : Clock τ δ) (Allowed : δ → Prop) (Reached : τ → Prop)
    (cause : NumberError) : Prop
  | advance {p : τ} {d : δ} (hp : Reached p) (hd : Allowed d)
      (h : clock.advance p d = .error cause)
  | ticks {p : τ} (hp : Reached p) (h : clock.ticks p = .error cause)

section

variable {clock : Clock τ δ} {Allowed : δ → Prop} {Reached : τ → Prop} {UpTo : τ → τ → Prop}
  {channel : Nat} {p next last : τ} {step : Step δ} {steps : List (Step δ)} {events : List Event}
  {fault : Fault}

theorem exists_mapM_eventBetween (hchannel : channel < 16) {start stop : Int} (hstart : 0 ≤ start)
    (hle : start ≤ stop) (pitches : List Pitch) :
    ∃ events, pitches.mapM (eventBetween channel start stop) = .ok events := by
  obtain ⟨first, rfl⟩ := Int.eq_ofNat_of_zero_le hstart
  obtain ⟨last, rfl⟩ := Int.eq_ofNat_of_zero_le (hstart.trans hle)
  rw [exists_mapM_iff]
  intro pitch _
  obtain ⟨e, he⟩ := exists_plays hchannel (Int.ofNat_le.1 hle) pitch
  exact ⟨e, eventBetween_eq_ok_iff.2 he⟩

namespace Clock.RunsForward

theorem stops_of_stepEvents (h : clock.RunsForward Allowed Reached UpTo) (hchannel : channel < 16)
    (hp : Reached p) (hd : Allowed step.2) (hfault : stepEvents clock channel p step = .error fault) :
    ∃ cause, fault = .number cause ∧ clock.Stops Allowed Reached cause := by
  obtain ⟨group, d⟩ := step
  cases group with
  | none =>
      simp only [stepEvents, bind_eq_error_iff, mapError_eq_error_iff, pure, Except.pure,
        reduceCtorEq, and_false, exists_false, or_false] at hfault
      obtain ⟨cause, hadvance, rfl⟩ := hfault
      exact ⟨cause, rfl, .advance hp hd hadvance⟩
  | some pitches =>
      simp only [stepEvents, bind_eq_error_iff, mapError_eq_error_iff, mapError_eq_ok_iff, pure,
        Except.pure, reduceCtorEq, and_false, exists_false, or_false] at hfault
      rcases hfault with ⟨cause, hticks, rfl⟩ | ⟨start, hstart, hfault⟩
      · exact ⟨cause, rfl, .ticks hp hticks⟩
      · rcases hfault with ⟨cause, hadvance, rfl⟩ | ⟨next, hnext, hfault⟩
        · exact ⟨cause, rfl, .advance hp hd hadvance⟩
        · obtain ⟨hreached, hupTo⟩ := h.advance hp hd hnext
          rcases hfault with ⟨cause, hticks, rfl⟩ | ⟨stop, hstop, cause, hevents, rfl⟩
          · exact ⟨cause, rfl, .ticks hreached hticks⟩
          · -- The ticks are in order, so that every event has a duration.
            obtain ⟨hnonneg, hle⟩ := h.ticks hp hreached hupTo hstart hstop
            obtain ⟨events, hok⟩ := exists_mapM_eventBetween hchannel hnonneg hle pitches
            rw [hok] at hevents
            cases hevents

/-- A step leads forward, and its events begin with it. -/
theorem of_stepEvents (h : clock.RunsForward Allowed Reached UpTo) (hp : Reached p)
    (hd : Allowed step.2) (hok : stepEvents clock channel p step = .ok (events, next)) :
    (Reached next ∧ UpTo p next) ∧
      ∀ e ∈ events, e.channel.val = channel ∧ clock.ticks p = .ok e.start := by
  obtain ⟨group, d⟩ := step
  cases group with
  | none =>
      simp only [stepEvents, bind_eq_ok_iff, mapError_eq_ok_iff, pure, Except.pure,
        Except.ok.injEq, Prod.mk.injEq] at hok
      obtain ⟨_, hnext, rfl, rfl⟩ := hok
      exact ⟨h.advance hp hd hnext, fun e he => absurd he List.not_mem_nil⟩
  | some pitches =>
      simp only [stepEvents, bind_eq_ok_iff, mapError_eq_ok_iff, mapM_eq_ok_iff,
        eventBetween_eq_ok_iff, pure, Except.pure, Except.ok.injEq, Prod.mk.injEq] at hok
      obtain ⟨start, hstart, _, hnext, stop, hstop, events, hplays, rfl, rfl⟩ := hok
      have hbegins : List.Forall₂ (fun e (_ : Pitch) =>
          (e.channel.val = channel ∧ clock.ticks p = .ok e.start) ∧ True) events pitches := by
        apply hplays.flip.imp
        intro e pitch hplay
        exact ⟨⟨hplay.channel_eq, by rw [hplay.start_eq, hstart]⟩, trivial⟩
      exact ⟨h.advance hp hd hnext, ((List.forall₂_and_left _ _).1 hbegins).1⟩

theorem stops_of_walk (h : clock.RunsForward Allowed Reached UpTo) (hchannel : channel < 16)
    (hp : Reached p) (hsteps : ∀ step ∈ steps, Allowed step.2)
    (hfault : walk clock channel p steps = .error fault) :
    ∃ cause, fault = .number cause ∧ clock.Stops Allowed Reached cause := by
  induction steps generalizing p with
  | nil => cases hfault
  | cons step rest ih =>
      rw [List.forall_mem_cons] at hsteps
      simp only [walk, bind_eq_error_iff, pure, Except.pure, reduceCtorEq, and_false, exists_false,
        or_false, Prod.exists] at hfault
      rcases hfault with hfault | ⟨events, next, hok, hfault⟩
      · exact h.stops_of_stepEvents hchannel hp hsteps.1 hfault
      · obtain ⟨⟨hreached, -⟩, -⟩ := h.of_stepEvents hp hsteps.1 hok
        exact ih hreached hsteps.2 hfault

/-- The events of a walk begin one after another, none of them before the walk. -/
theorem pairwise_of_walk (h : clock.RunsForward Allowed Reached UpTo) (hp : Reached p)
    (hsteps : ∀ step ∈ steps, Allowed step.2)
    (hok : walk clock channel p steps = .ok (events, last)) :
    (events.Pairwise fun e f => e.start ≤ f.start) ∧ ∀ e ∈ events, e.channel.val = channel ∧
      ∃ q, Reached q ∧ UpTo p q ∧ clock.ticks q = .ok e.start := by
  induction steps generalizing p events with
  | nil =>
      cases hok
      exact ⟨.nil, fun e he => absurd he List.not_mem_nil⟩
  | cons step rest ih =>
      rw [List.forall_mem_cons] at hsteps
      simp only [walk, bind_eq_ok_iff, pure, Except.pure, Except.ok.injEq, Prod.exists,
        Prod.mk.injEq] at hok
      obtain ⟨first, next, hstep, more, _, hmore, rfl, rfl⟩ := hok
      obtain ⟨⟨hreached, hupTo⟩, hfirst⟩ := h.of_stepEvents hp hsteps.1 hstep
      obtain ⟨hpairwise, hlater⟩ := ih hreached hsteps.2 hmore
      refine ⟨List.pairwise_append.2 ⟨?_, hpairwise, ?_⟩, fun e he => ?_⟩
      · -- The events of a step begin together.
        apply List.pairwise_of_forall_mem_list
        intro e he f hf
        have hsame := (hfirst e he).2.symm.trans (hfirst f hf).2
        exact Nat.le_of_eq (Int.ofNat_inj.1 (Except.ok.inj hsame))
      · -- A later step begins at a place that the walk reaches from here, and ticks keep the order.
        intro e he f hf
        obtain ⟨-, q, hq, hnext, hticks⟩ := hlater f hf
        have hle := (h.ticks hp hq (h.trans hupTo hnext) (hfirst e he).2 hticks).2
        exact Int.ofNat_le.1 hle
      · rcases List.mem_append.1 he with he | he
        · exact ⟨(hfirst e he).1, p, hp, h.refl hp, (hfirst e he).2⟩
        · obtain ⟨hchannel, q, hq, hnext, hticks⟩ := hlater e he
          exact ⟨hchannel, q, hq, h.trans hupTo hnext, hticks⟩

end Clock.RunsForward

end

/-! ## Exact beats -/

/-- Positions in beats as exact numbers. -/
def exactClock (ticksPerBeat : Int) : Clock ℚ Float where
  advance position duration := match exactValue? duration with
    | some value => .ok (position + value)
    | none => .error .undefined
  ticks position := .ok (roundHalfEven (position * ticksPerBeat))

/-- The duration has an exact value, which is not negative. -/
def IsExact (duration : Float) : Prop := ∃ value, exactValue? duration = some value ∧ 0 ≤ value

/-- A group and the ticks between which it is played. -/
structure Stretch where
  group : Group
  start : Int
  stop : Int

/-- The stretches of steps from a beat on. -/
def stretches (ticksPerBeat : Int) : ℚ → List (Step ℚ) → List Stretch
  | _, [] => []
  | beat, (group, duration) :: rest =>
      ⟨group, roundHalfEven (beat * ticksPerBeat),
        roundHalfEven ((beat + duration) * ticksPerBeat)⟩ ::
          stretches ticksPerBeat (beat + duration) rest

/-- The events of a stretch: one for each pitch. -/
abbrev Stretch.IsPlayed (channel : Nat) (s : Stretch) (events : List Event) : Prop :=
  List.Forall₂ (fun pitch e => e.Plays channel s.start s.stop pitch) (s.group.getD []) events

/-- The steps with the exact values of their durations. -/
abbrev AreExact (steps : List (Step Float)) (exact : List (Step ℚ)) : Prop :=
  List.Forall₂ (fun step exact => step.1 = exact.1 ∧ exactValue? step.2 = some exact.2) steps exact

variable {ticksPerBeat : Int} {channel : Nat}

theorem runsForward_exactClock (hticks : 0 < ticksPerBeat) :
    (exactClock ticksPerBeat).RunsForward IsExact (0 ≤ ·) (· ≤ ·) where
  refl _ := le_rfl
  trans := le_trans
  advance := by
    rintro p q d hp ⟨value, hvalue, hnonneg⟩ hq
    simp only [exactClock, hvalue, Except.ok.injEq] at hq
    rw [← hq]
    exact ⟨add_nonneg hp hnonneg, le_add_of_nonneg_right hnonneg⟩
  ticks := by
    intro p q s t hp hq hle hs ht
    have hsize : (0 : ℚ) ≤ ticksPerBeat := by exact_mod_cast hticks.le
    rw [← Except.ok.inj hs, ← Except.ok.inj ht]
    exact ⟨Decimal.roundHalfEven_nonneg (mul_nonneg hp hsize),
      Decimal.roundHalfEven_mono (mul_le_mul_of_nonneg_right hle hsize)⟩

theorem not_stops_exactClock {Reached : ℚ → Prop} {cause : NumberError} :
    ¬(exactClock ticksPerBeat).Stops IsExact Reached cause := by
  intro h
  cases h with
  | advance _ hd h =>
      obtain ⟨value, hvalue, -⟩ := hd
      simp [exactClock, hvalue] at h
  | ticks _ h => cases h

theorem exists_areExact {steps : List (Step Float)} (hsteps : ∀ step ∈ steps, IsExact step.2) :
    ∃ exact, AreExact steps exact := by
  rw [exists_forall₂_iff]
  intro step hstep
  obtain ⟨value, hvalue, -⟩ := hsteps step hstep
  exact ⟨(step.1, value), rfl, hvalue⟩

/-- The events of an exact step are those of its stretch. -/
theorem isPlayed_of_stepEvents {group : Group} {duration : Float} {value beat next : ℚ}
    {events : List Event} (hvalue : exactValue? duration = some value)
    (h : stepEvents (exactClock ticksPerBeat) channel beat (group, duration) = .ok (events, next)) :
    Stretch.IsPlayed channel ⟨group, roundHalfEven (beat * ticksPerBeat),
      roundHalfEven ((beat + value) * ticksPerBeat)⟩ events ∧ next = beat + value := by
  cases group with
  | none =>
      simp only [stepEvents, exactClock, hvalue, bind_eq_ok_iff, mapError_eq_ok_iff, pure,
        Except.pure, Except.ok.injEq, exists_eq_left', Prod.mk.injEq] at h
      obtain ⟨rfl, rfl⟩ := h
      exact ⟨.nil, rfl⟩
  | some pitches =>
      simp only [stepEvents, exactClock, hvalue, bind_eq_ok_iff, mapError_eq_ok_iff, mapM_eq_ok_iff,
        eventBetween_eq_ok_iff, pure, Except.pure, Except.ok.injEq, exists_eq_left',
        Prod.mk.injEq] at h
      obtain ⟨_, hplays, rfl, rfl⟩ := h
      exact ⟨hplays, rfl⟩

/-- The events of an exact walk are those of its stretches. -/
theorem exists_pieces_of_walk {steps : List (Step Float)} {exact : List (Step ℚ)} {beat last : ℚ}
    {events : List Event} (hexact : AreExact steps exact)
    (h : walk (exactClock ticksPerBeat) channel beat steps = .ok (events, last)) :
    (∃ pieces, List.Forall₂ (Stretch.IsPlayed channel) (stretches ticksPerBeat beat exact) pieces ∧
      events = pieces.flatten) ∧ last = beat + (exact.map (·.2)).sum := by
  induction hexact generalizing beat events with
  | nil =>
      cases h
      exact ⟨⟨[], .nil, rfl⟩, by simp⟩
  | @cons step read steps exact hread _ ih =>
      obtain ⟨group, duration⟩ := step
      obtain ⟨_, value⟩ := read
      obtain ⟨rfl, hvalue⟩ := hread
      simp only [walk, bind_eq_ok_iff, pure, Except.pure, Except.ok.injEq, Prod.exists,
        Prod.mk.injEq] at h
      obtain ⟨first, next, hstep, more, _, hmore, rfl, rfl⟩ := h
      obtain ⟨hfirst, rfl⟩ := isPlayed_of_stepEvents hvalue hstep
      obtain ⟨⟨pieces, hpieces, rfl⟩, rfl⟩ := ih hmore
      refine ⟨⟨first :: pieces, .cons hfirst hpieces, rfl⟩, ?_⟩
      rw [List.map_cons, List.sum_cons, add_assoc]

/-! ## Rounded beats -/

/-- The beat is undefined, or it has no sign. -/
inductive IsBeat : Decimal.Number → Prop
  | real {beat : Float} (h : IsUnsigned beat) : IsBeat (.real beat)

/-- The beats are in this order as far as they are finite. -/
inductive BeatUpTo : Decimal.Number → Decimal.Number → Prop
  | real {beat later : Float} (h : IsUpTo beat later) : BeatUpTo (.real beat) (.real later)

theorem runsForward_beatClock (hticks : 0 < ticksPerBeat) :
    (beatClock ticksPerBeat).RunsForward (¬· < 0.0) IsBeat BeatUpTo where
  refl := by
    rintro _ ⟨-⟩
    exact .real (.refl _)
  trans := by
    rintro _ _ _ ⟨hpq⟩ ⟨hqr⟩
    exact .real (hpq.trans hqr)
  advance := by
    rintro _ q d ⟨hbeat⟩ hd hq
    have hsum := Except.ok.inj hq
    rw [← hsum]
    exact ⟨.real (hbeat.add_of_not_lt hd), .real (isUpTo_add hbeat hd)⟩
  ticks := by
    rintro _ _ s t ⟨-⟩ ⟨hlater⟩ ⟨hupTo⟩ hs ht
    obtain ⟨first, hfirst, hnonneg, hle⟩ := exists_ticks_of_isUpTo hticks.le hlater hupTo ht
    obtain rfl : s = first := Except.ok.inj (hs.symm.trans hfirst)
    exact ⟨hnonneg, hle⟩

/-! ## Arrangements -/

variable {a : Arrangement} {fault : Fault}

theorem exists_of_allTracks_error {index : Nat} {ts : List Track}
    (h : (allTracks ticksPerBeat a index ts).result = .error fault) :
    ∃ (k : Nat) (t : Track),
      (referenceEvents (beatClock ticksPerBeat) (channelOf k) a t.name startPosition
        t.clips).result = .error fault := by
  induction ts generalizing index with
  | nil => cases h
  | cons t rest ih =>
      simp only [allTracks, trackMessages, Outcome.result_andThen_eq_error_iff, Outcome.value,
        reduceCtorEq, and_false, exists_false, or_false] at h
      rcases h with h | ⟨_, -, h⟩
      · exact ⟨index, t, h⟩
      · exact ih h

theorem midiError_of_tempoMessage {beatsPerMinute : Decimal.Number} {cause : MidiError}
    (h : tempoMessage beatsPerMinute = .error (.midi cause)) : cause = .tempo := by
  simp only [tempoMessage, bind_eq_error_iff, mapError_eq_error_iff, reduceCtorEq, and_false,
    exists_false, false_or] at h
  obtain ⟨value, -, h⟩ := h
  split at h
  · cases h
  · cases h
    rfl

section

variable (hlengths : ∀ c ∈ a.clips, c.HasLengths)

include hlengths

/-- On a clock that runs forward only the clock itself can fail, and the events of a track begin in
the order of its steps. -/
theorem Clock.RunsForward.of_referenceEvents {τ : Type} {clock : Clock τ Float}
    {P : Float → Prop} {Reached : τ → Prop} {UpTo : τ → τ → Prop} {start : τ}
    (h : clock.RunsForward P Reached UpTo) (hstart : Reached start)
    (hdurations : ∀ c ∈ a.clips, ∀ d ∈ c.durations, P d) (index : Nat) (t : Track) :
    let result := (referenceEvents clock (channelOf index) a t.name start t.clips).result
    (∀ fault, result = .error fault →
      ∃ cause, fault = .number cause ∧ clock.Stops P Reached cause) ∧
    ∀ events last, result = .ok (events, last) →
      (events.Pairwise fun e f => e.start ≤ f.start) ∧
        ∀ e ∈ events, e.channel.val = index % 16 := by
  obtain ⟨steps, hsteps, hallowed⟩ := Arrangement.exists_steps_of_clips
    (fun c hc => (hlengths c hc).exists_steps (hdurations c hc)) t.clips
  have hchannel : index % 16 < 16 := Nat.mod_lt _ (by decide)
  rw [result_referenceEvents_of_steps? hsteps]
  refine ⟨fun fault hfault => h.stops_of_walk hchannel hstart hallowed hfault, ?_⟩
  intro events last hok
  obtain ⟨hpairwise, hevents⟩ := h.pairwise_of_walk hstart hallowed hok
  exact ⟨hpairwise, fun e he => (hevents e he).1⟩

/-- With exact beats every track has events. -/
theorem exists_exact_events (hticks : 0 < ticksPerBeat)
    (hdurations : ∀ c ∈ a.clips, ∀ d ∈ c.durations, IsExact d) (index : Nat) (t : Track) :
    ∃ steps exact pieces, a.steps? t.clips = some steps ∧ AreExact steps exact ∧
      (referenceEvents (exactClock ticksPerBeat) (channelOf index) a t.name 0 t.clips).result =
        .ok (pieces.flatten, (exact.map (·.2)).sum) ∧
      List.Forall₂ (Stretch.IsPlayed (index % 16)) (stretches ticksPerBeat 0 exact) pieces ∧
      pieces.flatten.Pairwise fun e f => e.start ≤ f.start := by
  obtain ⟨steps, hsteps, hexactSteps⟩ := Arrangement.exists_steps_of_clips
    (fun c hc => (hlengths c hc).exists_steps (hdurations c hc)) t.clips
  obtain ⟨exact, hexact⟩ := exists_areExact hexactSteps
  have hzero : (0 : ℚ) ≤ 0 := le_rfl
  obtain ⟨hfails, horder⟩ :=
    (runsForward_exactClock hticks).of_referenceEvents hlengths hzero hdurations index t
  cases hresult : (referenceEvents (exactClock ticksPerBeat) (channelOf index) a t.name 0
      t.clips).result with
  | error fault =>
      obtain ⟨cause, -, hstops⟩ := hfails fault hresult
      exact absurd hstops not_stops_exactClock
  | ok played =>
      obtain ⟨events, last⟩ := played
      have hwalk := (result_referenceEvents_of_steps? hsteps).symm.trans hresult
      obtain ⟨⟨pieces, hpieces, rfl⟩, rfl⟩ := exists_pieces_of_walk hexact hwalk
      refine ⟨steps, exact, pieces, hsteps, hexact, ?_, hpieces, (horder _ _ hresult).1⟩
      rw [zero_add]

/-- If the durations of an arrangement are not negative, and a group has one each, then no event is
out of range, and the events of a track begin in the order of its steps.  With exact beats nothing
fails at all; with rounded ones a beat may have no tick, and the tempo may be out of its range. -/
theorem render_inRange (hticks : 0 < ticksPerBeat)
    (hdurations : ∀ c ∈ a.clips, ∀ d ∈ c.durations, ¬d < 0.0) :
    ((∀ c ∈ a.clips, ∀ d ∈ c.durations, ∃ value, exactValue? d = some value) →
      ∀ (index : Nat) (t : Track), ∃ steps exact pieces,
        a.steps? t.clips = some steps ∧ AreExact steps exact ∧
        (referenceEvents (exactClock ticksPerBeat) (channelOf index) a t.name 0 t.clips).result =
          .ok (pieces.flatten, (exact.map (·.2)).sum) ∧
        List.Forall₂ (Stretch.IsPlayed (index % 16)) (stretches ticksPerBeat 0 exact) pieces ∧
        pieces.flatten.Pairwise fun e f => e.start ≤ f.start) ∧
    (∀ tempo cause, (render a tempo ticksPerBeat).result = .error (.midi cause) →
      cause = .tempo) ∧
    ∀ (index : Nat) (t : Track) events last,
      (referenceEvents (beatClock ticksPerBeat) (channelOf index) a t.name startPosition
        t.clips).result = .ok (events, last) →
      (events.Pairwise fun e f => e.start ≤ f.start) ∧
        ∀ e ∈ events, e.channel.val = index % 16 := by
  have hstart : IsBeat startPosition := .real isUnsigned_zero
  have hrounded := (runsForward_beatClock hticks).of_referenceEvents hlengths hstart hdurations
  refine ⟨fun hvalues => ?_, ?_, fun index t => (hrounded index t).2⟩
  · apply exists_exact_events hlengths hticks
    intro c hc d hd
    obtain ⟨value, hvalue⟩ := hvalues c hc d hd
    exact ⟨value, hvalue, Decimal.nonneg_of_exactValue? (hdurations c hc d hd) hvalue⟩
  · intro tempo cause h
    simp only [render, Outcome.result_andThen_eq_error_iff, Outcome.of, Outcome.value,
      reduceCtorEq, and_false, exists_false, or_false] at h
    rcases h with htempo | ⟨_, -, htracks⟩
    · exact midiError_of_tempoMessage htempo
    · obtain ⟨k, t, hevents⟩ := exists_of_allTracks_error htracks
      obtain ⟨_, hnumber, -⟩ := (hrounded k t).1 _ hevents
      cases hnumber

end

/-- A chord, a rest of no time, which has a sign, and a note. -/
def unevenClip : InstrumentClip :=
  ⟨⟨"sine", sine_ne_empty⟩, ⟨"sine", sine_ne_empty⟩, [some [60, 64], none, some [67]],
    [0.3, -0.0, 0.1]⟩

def unevenTrack : Track := ⟨⟨"sine", sine_ne_empty⟩, ["sine", "sine"]⟩

def unevenTune : Arrangement where
  name := "uneven"
  clips := [.instrument unevenClip]
  tracks := [unevenTrack]

theorem render_inRange_unevenTune :
    (∃ events last, (referenceEvents (exactClock 7) (channelOf 17) unevenTune "sine" 0
      ["sine", "sine"]).result = .ok (events, last) ∧
        events.Pairwise fun e f => e.start ≤ f.start) ∧
    ∀ tempo cause, (render unevenTune tempo 7).result = .error (.midi cause) → cause = .tempo := by
  have hlengths : ∀ c ∈ unevenTune.clips, c.HasLengths := by
    rintro c hc d rfl
    obtain rfl := Clip.instrument.inj (List.mem_singleton.1 hc)
    rfl
  have hdurations : ∀ c ∈ unevenTune.clips, ∀ d ∈ c.durations, ¬d < 0.0 := by decide +kernel
  have hvalues : ∀ c ∈ unevenTune.clips, ∀ d ∈ c.durations,
      ∃ value, exactValue? d = some value := by
    have hfinite : ∀ c ∈ unevenTune.clips, ∀ d ∈ c.durations, (exactValue? d).isSome = true := by
      decide +kernel
    intro c hc d hd
    exact Option.isSome_iff_exists.1 (hfinite c hc d hd)
  have hticks : (0 : Int) < 7 := by decide
  obtain ⟨hexact, htempo, -⟩ := render_inRange hlengths hticks hdurations
  obtain ⟨_, _, pieces, _, _, hresult, _, horder⟩ := hexact hvalues 17 unevenTrack
  exact ⟨⟨pieces.flatten, _, hresult, horder⟩, htempo⟩

end Midi

end Arranger
