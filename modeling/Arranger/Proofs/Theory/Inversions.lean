import Arranger.Proofs.Theory.Chords

/-!
# Inversions

Numerals stand for tones in the octave above the base.  If these ascend, then a voicing that begins
with a later numeral takes the tones from there on in this octave and the ones in front of it an
octave higher.  It ascends and spans less than an octave, and from one inversion of a chord to the
next the lowest note moves up by an octave.
-/

namespace Arranger

theorem rotateLeft_eq {α : Type} {xs : List α} {i : Nat} (hi : i < xs.length) :
    xs.rotateLeft i = xs.drop i ++ xs.take i := by
  unfold List.rotateLeft
  dsimp only
  split
  · have hzero : i = 0 := by omega
    rw [hzero, List.drop_zero, List.take_zero, List.append_nil]
  · rw [Nat.mod_eq_of_lt hi]

theorem rotateLeft_perm {α : Type} {xs : List α} {i : Nat} (hi : i < xs.length) :
    (xs.rotateLeft i).Perm xs := by
  rw [rotateLeft_eq hi]
  exact List.perm_append_comm.trans (List.Perm.of_eq (List.take_append_drop i xs))

namespace Scale

variable {s : Scale} {numerals : List Numeral} {notes others : List Note} {i : Nat}

/-! ## Heights of an inversion -/

/-- The half steps from the base up to the tone of a numeral in the octave above the base. -/
def rise (s : Scale) (numeral : Numeral) : Int := s.interval numeral % 12

theorem rise_nonneg (s : Scale) (numeral : Numeral) : 0 ≤ s.rise numeral :=
  Int.emod_nonneg _ (by decide)

theorem rise_lt (s : Scale) (numeral : Numeral) : s.rise numeral < 12 :=
  Int.emod_lt_of_pos _ (by decide)

/-- The tones of numerals ascend in the octave above the base. -/
def AscendsInOctave (s : Scale) (numerals : List Numeral) : Prop :=
  (numerals.map s.rise).Pairwise (· < ·)

instance (s : Scale) (numerals : List Numeral) : Decidable (s.AscendsInOctave numerals) :=
  inferInstanceAs (Decidable ((numerals.map s.rise).Pairwise (· < ·)))

/-- The tones from a numeral on lie in the octave above the base, and those in front of it follow
an octave higher. -/
def invertedHeights (s : Scale) (numerals : List Numeral) (i : Nat) : List Int :=
  (numerals.drop i).map (fun numeral => s.base.height + s.rise numeral) ++
    (numerals.take i).map fun numeral => s.base.height + 12 + s.rise numeral

/-- Heights that never go up by an octave or more are those that a climb reaches. -/
theorem climb_eq {floor : Int} {targets heights : List Int}
    (hsame : List.Forall₂ (fun target h => target % 12 = h % 12) targets heights)
    (hnear : (floor :: heights).IsChain fun low high => low ≤ high ∧ high < low + 12) :
    climb floor targets = heights := by
  induction hsame generalizing floor with
  | nil => rfl
  | @cons target h _ _ hmod _ ih =>
      obtain ⟨⟨hle, hlt⟩, hrest⟩ := List.isChain_cons_cons.1 hnear
      have hnext : floor + (target - floor) % 12 = h := by omega
      simp only [climb, hnext, ih hrest]

theorem pairwise_invertedHeights (h : s.AscendsInOctave numerals) (i : Nat) :
    (s.invertedHeights numerals i).Pairwise fun low high => low < high ∧ high < low + 12 := by
  unfold AscendsInOctave at h
  rw [List.pairwise_map, ← List.take_append_drop i numerals, List.pairwise_append] at h
  obtain ⟨hfront, hback, hacross⟩ := h
  refine List.pairwise_append.2 ⟨hback.map _ ?_, hfront.map _ ?_, ?_⟩
  · intro low high hlt
    have hlow := s.rise_nonneg low
    have hhigh := s.rise_lt high
    constructor <;> omega
  · intro low high hlt
    have hlow := s.rise_nonneg low
    have hhigh := s.rise_lt high
    constructor <;> omega
  · -- The last tone of the octave is above the first one, which follows it an octave higher.
    intro low hlow high hhigh
    obtain ⟨back, hmemBack, rfl⟩ := List.mem_map.1 hlow
    obtain ⟨front, hmemFront, rfl⟩ := List.mem_map.1 hhigh
    have hlt := hacross front hmemFront back hmemBack
    have hnonneg := s.rise_nonneg front
    have hbelow := s.rise_lt back
    constructor <;> omega

theorem heightsFrom_rotateLeft (h : s.AscendsInOctave numerals) (hi : i < numerals.length) :
    s.heightsFrom s.base.height (numerals.rotateLeft i) = s.invertedHeights numerals i := by
  have hdrop := List.drop_eq_getElem_cons hi
  rw [rotateLeft_eq hi, heightsFrom, List.map_append]
  apply climb_eq
  · apply List.rel_append
    all_goals
      rw [List.forall₂_map_left_iff, List.forall₂_map_right_iff, List.forall₂_same]
      intro numeral _
      unfold rise
      omega
  · -- neighbours are nearer than an octave as any two of the heights are
    have hpairwise := pairwise_invertedHeights h i
    unfold invertedHeights at hpairwise ⊢
    rw [hdrop, List.map_cons, List.cons_append] at hpairwise ⊢
    have hnonneg := s.rise_nonneg numerals[i]
    have hlt := s.rise_lt numerals[i]
    refine List.isChain_cons_cons.2 ⟨⟨by omega, by omega⟩, ?_⟩
    exact (hpairwise.imp fun hnear => ⟨Int.le_of_lt hnear.1, hnear.2⟩).isChain

theorem map_height_of_inversion (h : s.AscendsInOctave numerals) (hi : i < numerals.length)
    (hnotes : s.voicing (numerals.rotateLeft i) = .ok notes) :
    notes.map Note.height = s.invertedHeights numerals i := by
  rw [map_height_of_voicing hnotes, heightsFrom_rotateLeft h hi]

theorem map_pitchClass_of_voicing (h : s.voicing numerals = .ok notes) :
    notes.map Note.pitchClass = numerals.map s.pitchClassOf := by
  have hclasses := (voicingFrom_eq_ok_iff.1 h).2.voices.pitchClasses
  clear h
  induction hclasses with
  | nil => rfl
  | cons hclass _ ih => rw [List.map_cons, List.map_cons, hclass, ih]

/-! ## From one inversion to the next -/

theorem pairwise_of_inversion (h : s.AscendsInOctave numerals) (hi : i < numerals.length)
    (hnotes : s.voicing (numerals.rotateLeft i) = .ok notes) :
    notes.Pairwise fun low high => low < high ∧ high.height < low.height + 12 := by
  have hheights := pairwise_invertedHeights h i
  rw [← map_height_of_inversion h hi hnotes, List.pairwise_map] at hheights
  exact hheights.imp fun hnear => ⟨Note.lt_iff_height.2 hnear.1, hnear.2⟩

/-- The first height leaves its place and comes back at the end, an octave higher. -/
theorem exists_invertedHeights_succ (hi : i < numerals.length) :
    ∃ lowest rest, s.invertedHeights numerals i = lowest :: rest ∧
      s.invertedHeights numerals (i + 1) = rest ++ [lowest + 12] := by
  refine ⟨s.base.height + s.rise numerals[i],
    (numerals.drop (i + 1)).map (fun numeral => s.base.height + s.rise numeral) ++
      (numerals.take i).map fun numeral => s.base.height + 12 + s.rise numeral, ?_, ?_⟩
  · rw [invertedHeights, List.drop_eq_getElem_cons hi, List.map_cons, List.cons_append]
  · have hlast : s.base.height + 12 + s.rise numerals[i] =
        s.base.height + s.rise numerals[i] + 12 := by omega
    rw [invertedHeights, List.take_add_one, List.getElem?_eq_getElem hi, Option.toList_some,
      List.map_append, List.map_singleton, hlast, List.append_assoc]

theorem exists_raised_of_inversions (h : s.AscendsInOctave numerals)
    (hi : i + 1 < numerals.length) (hnotes : s.voicing (numerals.rotateLeft i) = .ok notes)
    (hothers : s.voicing (numerals.rotateLeft (i + 1)) = .ok others) :
    ∃ lowest rest raised, notes = lowest :: rest ∧ others = rest ++ [raised] ∧
      lowest.transpose 12 = .ok raised := by
  have hlt : i < numerals.length := by omega
  obtain ⟨_, _, hlow, hhigh⟩ := exists_invertedHeights_succ (s := s) hlt
  rw [← map_height_of_inversion h hlt hnotes] at hlow
  rw [← map_height_of_inversion h hi hothers] at hhigh
  obtain ⟨lowest, rest, rfl, rfl, rfl⟩ := List.map_eq_cons_iff.1 hlow
  obtain ⟨rest', last, rfl, hrest, hlast⟩ := List.map_eq_append_iff.1 hhigh
  obtain ⟨raised, rfl, hraised⟩ := List.map_eq_singleton_iff.1 hlast
  have hinjective : Function.Injective Note.height := fun _ _ => Note.eq_of_height_eq
  rw [hinjective.list_map hrest]
  exact ⟨lowest, rest, raised, rfl, rfl, Note.transpose_eq_ok_iff.2 hraised⟩

end Scale

namespace Chord

variable {c : Chord} {inversion : Int} {notes : List Note}

theorem ascendsInOctave_formula (c : Chord) : c.referenceScale.AscendsInOctave c.formula := by
  have htypes : ∀ type : ChordType, middleScale.AscendsInOctave type.formula := by
    intro type
    cases type <;> decide
  exact htypes c.type

theorem voicing_eq_ok_iff :
    c.voicing inversion = .ok notes ↔
      ∃ i : Nat, inversion = i ∧ i < c.formula.length ∧
        c.referenceScale.voicing (c.formula.rotateLeft i) = .ok notes := by
  unfold voicing
  dsimp only
  split
  · next hlegal =>
    simp only [Bool.and_eq_true, decide_eq_true_eq] at hlegal
    obtain ⟨i, rfl⟩ := Int.eq_ofNat_of_zero_le hlegal.1
    constructor
    · intro hnotes
      exact ⟨i, rfl, Int.ofNat_lt.1 hlegal.2, hnotes⟩
    · rintro ⟨j, hij, -, hnotes⟩
      rw [Int.toNat_natCast, Int.ofNat.inj hij]
      exact hnotes
  · next hillegal =>
    simp only [reduceCtorEq, false_iff]
    rintro ⟨i, rfl, hi, -⟩
    exact hillegal (by simp [hi])

/-- If the tones of numerals ascend in the octave above the base, a voicing that begins with a later
numeral has those from there on in this octave and the ones in front of it an octave higher.  So
every voicing of a chord ascends and spans less than an octave, the lowest note of an inversion
moves up by an octave in the next one, and all of them have the same pitch classes. -/
theorem inversions_rotate :
    (∀ (s : Scale) (numerals : List Numeral) (i : Nat) (notes : List Note),
      s.AscendsInOctave numerals → i < numerals.length →
        s.voicing (numerals.rotateLeft i) = .ok notes →
          notes.map Note.height = s.invertedHeights numerals i) ∧
      ∀ c : Chord,
        (∀ inversion notes, c.voicing inversion = .ok notes →
          notes.Pairwise fun low high => low < high ∧ high.height < low.height + 12) ∧
        (∀ inversion notes others, c.voicing inversion = .ok notes →
          c.voicing (inversion + 1) = .ok others →
            ∃ lowest rest raised, notes = lowest :: rest ∧ others = rest ++ [raised] ∧
              lowest.transpose 12 = .ok raised) ∧
        ∀ inversion other notes others, c.voicing inversion = .ok notes →
          c.voicing other = .ok others →
            (notes.map Note.pitchClass).Perm (others.map Note.pitchClass) := by
  refine ⟨fun s numerals i notes h hi hnotes => Scale.map_height_of_inversion h hi hnotes, ?_⟩
  intro c
  have hascends := c.ascendsInOctave_formula
  refine ⟨?_, ?_, ?_⟩
  · intro inversion notes hnotes
    obtain ⟨i, -, hi, hnotes⟩ := voicing_eq_ok_iff.1 hnotes
    exact Scale.pairwise_of_inversion hascends hi hnotes
  · intro inversion notes others hnotes hothers
    obtain ⟨i, rfl, -, hnotes⟩ := voicing_eq_ok_iff.1 hnotes
    obtain ⟨j, hij, hj, hothers⟩ := voicing_eq_ok_iff.1 hothers
    obtain rfl : i + 1 = j := by omega
    exact Scale.exists_raised_of_inversions hascends hj hnotes hothers
  · intro inversion other notes others hnotes hothers
    obtain ⟨i, -, hi, hnotes⟩ := voicing_eq_ok_iff.1 hnotes
    obtain ⟨j, -, hj, hothers⟩ := voicing_eq_ok_iff.1 hothers
    rw [Scale.map_pitchClass_of_voicing hnotes, Scale.map_pitchClass_of_voicing hothers]
    exact ((rotateLeft_perm hi).trans (rotateLeft_perm hj).symm).map _

/-- Tones of several octaves, which ascend when they are put into one. -/
def spreadFigure : List Numeral :=
  [⟨25, .natural, by decide⟩, ⟨8, .natural, by decide⟩, ⟨17, .natural, by decide⟩,
    ⟨18, .flat, by decide⟩]

def lowSeventh : Chord := ⟨Note.ofPitch 34, .minorSeventh⟩

theorem inversions_rotate_spreadFigure :
    (∃ notes, Scale.bluesScale.voicing (spreadFigure.rotateLeft 2) = .ok notes ∧
      notes.map Note.height = [65, 67, 70, 73]) ∧
      ∃ notes others, lowSeventh.voicing 2 = .ok notes ∧ lowSeventh.voicing 3 = .ok others ∧
        (notes.Pairwise fun low high => low < high ∧ high.height < low.height + 12) ∧
        (∃ lowest rest raised, notes = lowest :: rest ∧ others = rest ++ [raised] ∧
          lowest.transpose 12 = .ok raised) ∧
        (notes.map Note.pitchClass).Perm (others.map Note.pitchClass) := by
  obtain ⟨hfigures, hchords⟩ := inversions_rotate
  obtain ⟨hascend, hraise, hclasses⟩ := hchords lowSeventh
  constructor
  · have hvoicing : Scale.bluesScale.voicing (spreadFigure.rotateLeft 2) =
        .ok ([65, 67, 70, 73].map Note.ofPitch) := by decide +kernel
    refine ⟨_, hvoicing, ?_⟩
    rw [hfigures _ _ _ _ (by decide +kernel) (by decide) hvoicing]
    decide +kernel
  · have hnotes : lowSeventh.voicing 2 = .ok ([41, 44, 46, 49].map Note.ofPitch) := by
      decide +kernel
    have hothers : lowSeventh.voicing 3 = .ok ([44, 46, 49, 53].map Note.ofPitch) := by
      decide +kernel
    exact ⟨_, _, hnotes, hothers, hascend 2 _ hnotes, hraise 2 _ _ hnotes hothers,
      hclasses 2 3 _ _ hnotes hothers⟩

end Chord

end Arranger
