import Arranger.Proofs.Theory.Voicing
import Arranger.Theory.Chord

/-!
# Chords at the end of the range

A chord is voiced if all of its notes are in range, but for one case: in root position the tones of
its numerals must be in range before they are altered too.  A chord with a flat on top, whose
topmost note is the last one of all, has such a tone beyond the range and is not voiced.
-/

namespace Arranger

/-! ## Tables -/

/-- The numerals of chords are resolved alike on every root. -/
def middleScale : Scale := ⟨Note.ofPitch 60, .major⟩

namespace ChordType

/-- The half steps from the root to the notes of an inversion. -/
def steps (t : ChordType) (inversion : Nat) : List Int :=
  Scale.climb 0 ((t.formula.rotateLeft inversion).map middleScale.interval)

theorem inOctave_of_mem_formula (t : ChordType) :
    ∀ numeral ∈ t.formula, middleScale.offset (numeral.degree - 1) < 12 ∧
      0 ≤ middleScale.interval numeral ∧ middleScale.interval numeral < 12 := by
  cases t <;> decide

/-- Root position has the tones of the numerals themselves. -/
theorem steps_zero (t : ChordType) : t.steps 0 = t.formula.map middleScale.interval := by
  cases t <;> decide

/-- Every inversion ends at or above the octave of the root. -/
theorem exists_octave_of_inversion (t : ChordType) :
    ∀ inversion < t.formula.length, 0 < inversion → ∃ k ∈ t.steps inversion, 12 ≤ k := by
  cases t <;> decide

end ChordType

theorem mem_rotateLeft {α : Type} {xs : List α} {n : Nat} {x : α} :
    x ∈ xs.rotateLeft n ↔ x ∈ xs := by
  unfold List.rotateLeft
  dsimp only
  split
  · rfl
  · rw [List.mem_append, or_comm, ← List.mem_append, List.take_append_drop]

namespace Chord

variable {c : Chord} {inversion : Int}

theorem offset_referenceScale (c : Chord) (steps : Int) :
    c.referenceScale.offset steps = middleScale.offset steps := rfl

theorem interval_referenceScale (c : Chord) (numeral : Numeral) :
    c.referenceScale.interval numeral = middleScale.interval numeral := rfl

/-! ## Voicings in range -/

/-- The heights of the notes that an inversion would have. -/
def heights (c : Chord) (inversion : Int) : List Int :=
  c.referenceScale.heightsFrom c.root.height (c.formula.rotateLeft inversion.toNat)

theorem heights_eq (c : Chord) (inversion : Int) :
    c.heights inversion = (c.type.steps inversion.toNat).map (c.root.height + ·) := by
  have hclimb := Scale.climb_add c.root.height 0
    ((c.type.formula.rotateLeft inversion.toNat).map middleScale.interval)
  rw [Int.add_zero, List.map_map] at hclimb
  exact hclimb

theorem voicing_of_isLegal (hlow : 0 ≤ inversion) (hhigh : inversion < c.formula.length) :
    c.voicing inversion = c.referenceScale.voicing (c.formula.rotateLeft inversion.toNat) := by
  unfold voicing
  simp [hlow, hhigh]

theorem map_height_of_voicing {notes : List Note} (hlow : 0 ≤ inversion)
    (hhigh : inversion < c.formula.length) (h : c.voicing inversion = .ok notes) :
    notes.map Note.height = c.heights inversion := by
  rw [voicing_of_isLegal hlow hhigh] at h
  exact Scale.map_height_of_voicing h

theorem formula_length_pos (c : Chord) : 0 < c.formula.length := by
  unfold formula
  cases c.type <;> decide

/-- The notes of the root position ascend from the root. -/
theorem pairwise_heights_zero (c : Chord) : (c.heights 0).Pairwise (· < ·) := by
  have hsteps : (c.type.steps 0).Pairwise (· < ·) := by cases c.type <;> decide
  rw [heights_eq, Int.toNat_zero]
  exact hsteps.map _ fun _ _ hlt => Int.add_lt_add_left hlt _

theorem exists_voicing_iff (hlow : 0 ≤ inversion) (hhigh : inversion < c.formula.length) :
    (∃ notes, c.voicing inversion = .ok notes) ↔
      (∀ numeral ∈ c.formula, c.referenceScale.HasTone numeral) ∧
        ∀ h ∈ c.heights inversion, h < 128 := by
  rw [voicing_of_isLegal hlow hhigh, Scale.exists_voicing_iff]
  simp only [mem_rotateLeft]
  rfl

theorem hasTone_of_mem_formula {numeral : Numeral} (hmem : numeral ∈ c.formula)
    (hnatural : c.root.height + c.referenceScale.offset (numeral.degree - 1) < 128)
    (hlt : c.root.height + middleScale.interval numeral < 128) :
    c.referenceScale.HasTone numeral := by
  obtain ⟨-, hnonneg, -⟩ := c.type.inOctave_of_mem_formula numeral hmem
  have hroot := c.root.height_nonneg
  refine ⟨hnatural, ?_, ?_⟩
  · rw [interval_referenceScale]
    exact Int.add_nonneg hroot hnonneg
  · exact hlt

/-- What ends above the octave of the root is above all tones of the numerals. -/
theorem hasTone_of_inversion (hlow : 0 < inversion) (hhigh : inversion < c.formula.length)
    (hheights : ∀ h ∈ c.heights inversion, h < 128) :
    ∀ numeral ∈ c.formula, c.referenceScale.HasTone numeral := by
  have hbound : inversion.toNat < c.type.formula.length := by
    change inversion < c.type.formula.length at hhigh
    omega
  obtain ⟨k, hk, hoctave⟩ := c.type.exists_octave_of_inversion _ hbound (by omega)
  have htop : c.root.height + k < 128 := by
    apply hheights
    rw [heights_eq]
    exact List.mem_map_of_mem hk
  intro numeral hmem
  obtain ⟨hnatural, -, hinterval⟩ := c.type.inOctave_of_mem_formula numeral hmem
  apply hasTone_of_mem_formula hmem
  · rw [offset_referenceScale]
    omega
  · omega

theorem hasTone_iff_of_root (hheights : ∀ h ∈ c.heights 0, h < 128) :
    (∀ numeral ∈ c.formula, c.referenceScale.HasTone numeral) ↔
      ∀ numeral ∈ c.formula,
        c.root.height + c.referenceScale.offset (numeral.degree - 1) < 128 := by
  constructor
  · intro htones numeral hmem
    exact (htones numeral hmem).natural_lt
  · intro hnaturals numeral hmem
    apply hasTone_of_mem_formula hmem (hnaturals numeral hmem)
    apply hheights
    rw [heights_eq, Int.toNat_zero, ChordType.steps_zero, List.map_map]
    exact List.mem_map_of_mem hmem

/-- An inversion is voiced if its notes are in range, and in root position the tones too. -/
theorem exists_voicing_iff_inRange (hlow : 0 ≤ inversion) (hhigh : inversion < c.formula.length) :
    (∃ notes, c.voicing inversion = .ok notes) ↔
      (∀ h ∈ c.heights inversion, h < 128) ∧
        (inversion = 0 → ∀ numeral ∈ c.formula,
          c.root.height + c.referenceScale.offset (numeral.degree - 1) < 128) := by
  rw [exists_voicing_iff hlow hhigh, and_comm]
  refine and_congr_right fun hheights => ?_
  rcases Int.lt_or_eq_of_le hlow with hpos | rfl
  · have htones := hasTone_of_inversion hpos hhigh hheights
    have hne : inversion ≠ 0 := by omega
    exact iff_of_true htones fun hzero => absurd hzero hne
  · rw [hasTone_iff_of_root hheights]
    exact ⟨fun hnaturals _ => hnaturals, fun hnaturals => hnaturals rfl⟩

theorem failsInRange_voicing (c : Chord) (inversion : Int) :
    FailsInRange (c.voicing inversion) := by
  unfold voicing
  dsimp only
  split
  · exact c.referenceScale.failsInRange_voicingFrom _ _
  · exact .range _

/-- The sixth is the last but one of all notes. -/
def highSixth : Chord := ⟨Note.ofPitch 117, .majorSixth⟩

/-- The seventh is the last of all notes, and a half step above it there is none. -/
def highSeventh : Chord := ⟨Note.ofPitch 117, .minorSeventh⟩

end Chord

end Arranger
