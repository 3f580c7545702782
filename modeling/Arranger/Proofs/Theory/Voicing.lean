import Arranger.Proofs.Theory.Notes
import Arranger.Theory.Scale

/-!
# Voicings of numerals

A numeral is resolved to the lowest note of its pitch class that is not below the preceding note,
if there is one and if the tone of the numeral is a note too, before it is altered and after.  A
voicing takes the lowest note each time, and therefore lies nowhere above any other sequence of
notes that does not descend and has the same pitch classes.
-/

namespace Arranger.Scale

variable {s : Scale} {numeral : Numeral} {numerals : List Numeral} {floor preceding note : Note}
  {notes others : List Note}

/-- The half steps from the base to the tone of a numeral, altered by its accidental. -/
def interval (s : Scale) (numeral : Numeral) : Int :=
  s.offset (numeral.degree - 1) + numeral.accidental.halfSteps

def pitchClassOf (s : Scale) (numeral : Numeral) : PitchClass :=
  s.base.pitchClass.transpose (s.interval numeral)

theorem offset_nonneg {steps : Int} (hsteps : 0 ≤ steps) : 0 ≤ s.offset steps := by
  have hoctaves : 0 ≤ steps.fdiv s.formula.length :=
    Int.fdiv_nonneg hsteps (Int.natCast_nonneg _)
  unfold offset
  dsimp only
  omega

/-! ## Tones -/

/-- The tone of a numeral is a note, both before it is altered and after. -/
structure HasTone (s : Scale) (numeral : Numeral) : Prop where
  natural_lt : s.base.height + s.offset (numeral.degree - 1) < 128
  nonneg : 0 ≤ s.base.height + s.interval numeral
  lt : s.base.height + s.interval numeral < 128

/-- The tone of a numeral, altered by its accidental. -/
def tone (s : Scale) (numeral : Numeral) : Except TheoryError Note := do
  let tone ← s.degree (numeral.degree - 1)
  tone.transpose numeral.accidental.halfSteps

theorem resolve_eq (s : Scale) (numeral : Numeral) (preceding : Note) :
    s.resolve numeral preceding = (do
      let altered ← s.tone numeral
      let beside ← altered.withOctave preceding.octave
      if beside < preceding then beside.withOctave (preceding.octave + 1) else .ok beside) := by
  unfold resolve tone
  cases s.degree (numeral.degree - 1) with
  | error e => rfl
  | ok tone => rfl

theorem tone_eq_ok_iff :
    s.tone numeral = .ok note ↔
      s.HasTone numeral ∧ note.height = s.base.height + s.interval numeral := by
  have hsum : s.interval numeral =
      s.offset (numeral.degree - 1) + numeral.accidental.halfSteps := rfl
  unfold tone degree
  simp only [bind_eq_ok_iff, Note.transpose_eq_ok_iff]
  constructor
  · rintro ⟨natural, hnatural, hnote⟩
    have hlt := natural.height_lt
    have hnonneg := note.height_nonneg
    have hnoteLt := note.height_lt
    exact ⟨⟨by omega, by omega, by omega⟩, by omega⟩
  · rintro ⟨htone, hnote⟩
    have hdegree := numeral.degree_pos
    have hoffset : 0 ≤ s.offset (numeral.degree - 1) := offset_nonneg (by omega)
    have hbase := s.base.height_nonneg
    obtain ⟨natural, hnatural⟩ := Note.exists_height_eq
      (k := s.base.height + s.offset (numeral.degree - 1)) (by omega) htone.natural_lt
    exact ⟨natural, hnatural, by omega⟩

theorem pitchClass_of_tone (h : s.tone numeral = .ok note) :
    note.pitchClass = s.pitchClassOf numeral := by
  rw [pitchClassOf, Note.pitchClass_eq_transpose_iff, (tone_eq_ok_iff.1 h).2]

theorem exists_tone_iff : (∃ altered, s.tone numeral = .ok altered) ↔ s.HasTone numeral := by
  constructor
  · rintro ⟨altered, haltered⟩
    exact (tone_eq_ok_iff.1 haltered).1
  · intro htone
    obtain ⟨altered, haltered⟩ := Note.exists_height_eq htone.nonneg htone.lt
    exact ⟨altered, tone_eq_ok_iff.2 ⟨htone, haltered⟩⟩

/-! ## Numerals above a note -/

/-- Beside the preceding note, or an octave above this place, is the lowest note. -/
theorem resolve_eq_ok_iff :
    s.resolve numeral preceding = .ok note ↔
      s.HasTone numeral ∧ IsLeast (preceding.atOrAbove (s.pitchClassOf numeral)) note := by
  rw [resolve_eq, ← exists_tone_iff, Note.isLeast_atOrAbove_iff]
  simp only [bind_eq_ok_iff, Note.withOctave_eq_ok_iff]
  have hpreceding := preceding.height_eq
  have hprecedingLt := preceding.pitchClass.isLt
  have hnote := note.height_eq
  constructor
  · rintro ⟨altered, haltered, beside, ⟨hbeside, hoctave⟩, hresult⟩
    rw [pitchClass_of_tone haltered] at hbeside
    have hheight := beside.height_eq
    have hbesideLt := beside.pitchClass.isLt
    split at hresult
    · next hbelow =>
      obtain ⟨hclass, hup⟩ := Note.withOctave_eq_ok_iff.1 hresult
      have hlt := Note.lt_iff_height.1 hbelow
      rw [hclass] at hnote
      exact ⟨⟨altered, haltered⟩, hclass.trans hbeside, by omega, by omega⟩
    · next habove =>
      obtain rfl := Except.ok.inj hresult
      have hge := mt Note.lt_iff_height.2 habove
      exact ⟨⟨altered, haltered⟩, hbeside, by omega, by omega⟩
  · rintro ⟨⟨altered, haltered⟩, hclass, hle, hlt⟩
    have halteredClass := pitchClass_of_tone haltered
    have hnoteLt := note.pitchClass.isLt
    by_cases hoctave : note.octave = preceding.octave
    · refine ⟨altered, haltered, note, ⟨hclass.trans halteredClass.symm, hoctave⟩, ?_⟩
      rw [if_neg (mt Note.lt_iff_height.1 (by omega))]
    · -- The note is in the octave above, and an octave below it is the one that is passed over.
      have hup : note.octave = preceding.octave + 1 := by omega
      have hnonneg := preceding.height_nonneg
      have hnoteRange := note.height_lt
      have hinRange : 0 ≤ midiNumber note.pitchClass preceding.octave ∧
          midiNumber note.pitchClass preceding.octave < 128 := by
        unfold midiNumber
        omega
      let beside : Note := ⟨note.pitchClass, preceding.octave, hinRange⟩
      have hheight : beside.height = (preceding.octave + 1) * 12 + note.pitchClass.val :=
        beside.height_eq
      refine ⟨altered, haltered, beside, ⟨hclass.trans halteredClass.symm, rfl⟩, ?_⟩
      rw [if_pos (Note.lt_iff_height.2 (by omega))]
      exact Note.withOctave_eq_ok_iff.2 ⟨rfl, hup⟩

theorem exists_resolve_iff :
    (∃ note, s.resolve numeral preceding = .ok note) ↔
      s.HasTone numeral ∧ ∃ note, preceding ≤ note ∧ note.pitchClass = s.pitchClassOf numeral := by
  simp only [resolve_eq_ok_iff, exists_and_left, Note.exists_isLeast_iff]

theorem failsInRange_resolve (s : Scale) (numeral : Numeral) (preceding : Note) :
    FailsInRange (s.resolve numeral preceding) := by
  refine (Note.failsInRange_transpose _ _).bind fun tone => ?_
  refine (Note.failsInRange_transpose tone _).bind fun altered => ?_
  refine (Note.failsInRange_withOctave altered _).bind fun beside => ?_
  split
  · exact Note.failsInRange_withOctave beside _
  · exact .ok _

/-! ## Sequences -/

/-- Each note is the lowest one at or above its predecessor. -/
inductive ResolvesFrom (s : Scale) : Note → List Numeral → List Note → Prop where
  | nil {floor : Note} : ResolvesFrom s floor [] []
  | cons {floor note : Note} {numeral : Numeral} {numerals : List Numeral} {notes : List Note}
      (hleast : IsLeast (floor.atOrAbove (s.pitchClassOf numeral)) note)
      (hrest : ResolvesFrom s note numerals notes) :
      ResolvesFrom s floor (numeral :: numerals) (note :: notes)

theorem resolvesFrom_cons_iff :
    s.ResolvesFrom floor (numeral :: numerals) notes ↔
      ∃ note rest, IsLeast (floor.atOrAbove (s.pitchClassOf numeral)) note ∧
        s.ResolvesFrom note numerals rest ∧ notes = note :: rest := by
  constructor
  · rintro (_ | ⟨hleast, hrest⟩)
    exact ⟨_, _, hleast, hrest, rfl⟩
  · rintro ⟨note, rest, hleast, hrest, rfl⟩
    exact .cons hleast hrest

theorem voicingFrom_eq_ok_iff :
    s.voicingFrom floor numerals = .ok notes ↔
      (∀ numeral ∈ numerals, s.HasTone numeral) ∧ s.ResolvesFrom floor numerals notes := by
  induction numerals generalizing floor notes with
  | nil =>
      simp only [voicingFrom, Except.ok.injEq, List.not_mem_nil, false_implies, implies_true,
        true_and]
      constructor
      · rintro rfl
        exact .nil
      · rintro ⟨⟩
        rfl
  | cons numeral rest ih =>
      rw [List.forall_mem_cons, resolvesFrom_cons_iff]
      simp only [voicingFrom, bind_eq_ok_iff, resolve_eq_ok_iff, ih, pure, Except.pure,
        Except.ok.injEq]
      constructor
      · rintro ⟨note, ⟨htone, hleast⟩, more, ⟨htones, hmore⟩, rfl⟩
        exact ⟨⟨htone, htones⟩, note, more, hleast, hmore, rfl⟩
      · rintro ⟨⟨htone, htones⟩, note, more, hleast, hmore, rfl⟩
        exact ⟨note, ⟨htone, hleast⟩, more, ⟨htones, hmore⟩, rfl⟩

theorem failsInRange_voicingFrom (s : Scale) (floor : Note) (numerals : List Numeral) :
    FailsInRange (s.voicingFrom floor numerals) := by
  induction numerals generalizing floor with
  | nil => exact .ok _
  | cons numeral rest ih =>
      refine (s.failsInRange_resolve numeral floor).bind fun note => ?_
      exact (ih note).bind fun more => .ok _

/-! ## Heights -/

/-- The heights that are reached from `floor` on by going to the next octave of each target in
turn.  They have no upper bound. -/
def climb : Int → List Int → List Int
  | _, [] => []
  | floor, target :: rest =>
      let next := floor + (target - floor) % 12
      next :: climb next rest

theorem climb_add (k floor : Int) (targets : List Int) :
    climb (k + floor) (targets.map (k + ·)) = (climb floor targets).map (k + ·) := by
  induction targets generalizing floor with
  | nil => rfl
  | cons target rest ih =>
      have hnext : k + floor + (k + target - (k + floor)) % 12 =
          k + (floor + (target - floor) % 12) := by omega
      simp only [climb, List.map_cons, hnext, ih]

/-- The heights of the notes that a voicing of numerals would have. -/
def heightsFrom (s : Scale) (floor : Int) (numerals : List Numeral) : List Int :=
  climb floor (numerals.map fun numeral => s.base.height + s.interval numeral)

theorem heightsFrom_cons (s : Scale) (floor : Int) (numeral : Numeral) (rest : List Numeral) :
    s.heightsFrom floor (numeral :: rest) =
      let next := floor + (s.base.height + s.interval numeral - floor) % 12
      next :: s.heightsFrom next rest := rfl

theorem isLeast_pitchClassOf_iff :
    IsLeast (floor.atOrAbove (s.pitchClassOf numeral)) note ↔
      note.height = floor.height + (s.base.height + s.interval numeral - floor.height) % 12 := by
  rw [Note.isLeast_atOrAbove_iff, pitchClassOf, Note.pitchClass_eq_transpose_iff]
  omega

theorem exists_resolvesFrom_iff :
    (∃ notes, s.ResolvesFrom floor numerals notes) ↔
      ∀ h ∈ s.heightsFrom floor.height numerals, h < 128 := by
  induction numerals generalizing floor with
  | nil => exact ⟨fun _ h hh => absurd hh List.not_mem_nil, fun _ => ⟨[], .nil⟩⟩
  | cons numeral rest ih =>
      have hfloor := floor.height_nonneg
      simp only [heightsFrom_cons, List.forall_mem_cons, resolvesFrom_cons_iff,
        isLeast_pitchClassOf_iff]
      constructor
      · rintro ⟨_, note, more, hnote, hmore, rfl⟩
        rw [← hnote]
        exact ⟨note.height_lt, ih.1 ⟨more, hmore⟩⟩
      · rintro ⟨hlt, hrest⟩
        obtain ⟨note, hnote⟩ := Note.exists_height_eq (by omega) hlt
        rw [← hnote] at hrest
        obtain ⟨more, hmore⟩ := ih.2 hrest
        exact ⟨_, note, more, hnote, hmore, rfl⟩

theorem ResolvesFrom.map_height (h : s.ResolvesFrom floor numerals notes) :
    notes.map Note.height = s.heightsFrom floor.height numerals := by
  induction h with
  | nil => rfl
  | cons hleast _ ih =>
      rw [heightsFrom_cons, List.map_cons, ih, isLeast_pitchClassOf_iff.1 hleast]

theorem map_height_of_voicing (h : s.voicing numerals = .ok notes) :
    notes.map Note.height = s.heightsFrom s.base.height numerals :=
  (voicingFrom_eq_ok_iff.1 h).2.map_height

theorem exists_voicing_iff :
    (∃ notes, s.voicing numerals = .ok notes) ↔
      (∀ numeral ∈ numerals, s.HasTone numeral) ∧
        ∀ h ∈ s.heightsFrom s.base.height numerals, h < 128 := by
  simp only [voicing, voicingFrom_eq_ok_iff, exists_and_left, exists_resolvesFrom_iff]

/-! ## The lowest voicing -/

/-- Notes of the pitch classes of numerals that do not descend, the first of them not below a
note. -/
structure Voices (s : Scale) (floor : Note) (numerals : List Numeral) (notes : List Note) :
    Prop where
  pitchClasses :
    List.Forall₂ (fun numeral note => note.pitchClass = s.pitchClassOf numeral) numerals notes
  ascending : (floor :: notes).IsChain (· ≤ ·)

theorem voices_cons_iff :
    s.Voices floor (numeral :: numerals) notes ↔
      ∃ note rest, note ∈ floor.atOrAbove (s.pitchClassOf numeral) ∧
        s.Voices note numerals rest ∧ notes = note :: rest := by
  constructor
  · rintro ⟨hclasses, hchain⟩
    obtain ⟨note, rest, hclass, hrest, rfl⟩ := List.forall₂_cons_left_iff.1 hclasses
    obtain ⟨hle, hchain⟩ := List.isChain_cons_cons.1 hchain
    exact ⟨note, rest, ⟨hle, hclass⟩, ⟨hrest, hchain⟩, rfl⟩
  · rintro ⟨note, rest, ⟨hle, hclass⟩, ⟨hrest, hchain⟩, rfl⟩
    exact ⟨.cons hclass hrest, .cons_cons hle hchain⟩

theorem ResolvesFrom.voices (h : s.ResolvesFrom floor numerals notes) :
    s.Voices floor numerals notes := by
  induction h with
  | nil => exact ⟨.nil, .singleton _⟩
  | cons hleast _ ih => exact voices_cons_iff.2 ⟨_, _, hleast.1, ih, rfl⟩

/-- Whoever starts higher stays at or above the lowest notes. -/
theorem ResolvesFrom.forall₂_le {higher : Note} (h : s.ResolvesFrom floor numerals notes)
    (hfloor : floor ≤ higher) (hothers : s.Voices higher numerals others) :
    List.Forall₂ (· ≤ ·) notes others := by
  induction h generalizing higher others with
  | nil =>
      cases hothers.pitchClasses
      exact .nil
  | cons hleast _ ih =>
      obtain ⟨other, more, ⟨hle, hclass⟩, hmore, rfl⟩ := voices_cons_iff.1 hothers
      have hother := hleast.2 ⟨Note.le_trans hfloor hle, hclass⟩
      exact .cons hother (ih hother hmore)

/-- A voicing has the pitch classes of its numerals and does not descend, and every other sequence
of notes like that lies at or above it, note by note.  Each of its notes is the lowest one at or
above its predecessor. -/
theorem voicing_pointwise_lowest (h : s.voicing numerals = .ok notes) :
    s.Voices s.base numerals notes ∧
      (∀ others, s.Voices s.base numerals others → List.Forall₂ (· ≤ ·) notes others) ∧
        ∀ numeral preceding note, s.resolve numeral preceding = .ok note →
          IsLeast (preceding.atOrAbove (s.pitchClassOf numeral)) note := by
  have hresolves := (voicingFrom_eq_ok_iff.1 h).2
  refine ⟨hresolves.voices, ?_, ?_⟩
  · intro others hothers
    exact hresolves.forall₂_le (Note.le_refl _) hothers
  · intro numeral preceding note hnote
    exact (resolve_eq_ok_iff.1 hnote).2

def bluesScale : Scale := ⟨Note.ofPitch 58, .blues⟩

/-- Tones of four octaves, altered and not. -/
def bluesFigure : List Numeral :=
  [⟨11, .natural, by decide⟩, ⟨2, .flat, by decide⟩, ⟨4, .sharp, by decide⟩,
    ⟨19, .natural, by decide⟩, ⟨13, .natural, by decide⟩]

def bluesNotes : List Note := [65, 72, 77, 82, 82].map Note.ofPitch

theorem voicing_pointwise_lowest_bluesFigure :
    bluesScale.voicing bluesFigure = .ok bluesNotes ∧
      bluesScale.Voices bluesScale.base bluesFigure bluesNotes ∧
        ∀ others, bluesScale.Voices bluesScale.base bluesFigure others →
          List.Forall₂ (· ≤ ·) bluesNotes others := by
  have hvoicing : bluesScale.voicing bluesFigure = .ok bluesNotes := by decide +kernel
  obtain ⟨hvoices, hlowest, -⟩ := voicing_pointwise_lowest hvoicing
  exact ⟨hvoicing, hvoices, hlowest⟩

end Arranger.Scale
