import Arranger.Proofs.Results
import Arranger.Theory.Note
import Mathlib.Order.Bounds.Defs

/-!
# Notes and their heights

A note is known by its height, which is its MIDI number.  Moving a note adds half steps to its
height, and fails only where no note has the sum; the pitch class is what a height leaves modulo
twelve.  Of the notes of one pitch class that are not below a given note, the lowest one is less
than an octave above it.
-/

namespace Arranger

/-- A computation fails for no other reason than a pitch or a position outside its range. -/
def FailsInRange {α : Type} (x : Except TheoryError α) : Prop :=
  ∀ e, x = .error e → ∃ cause, e = .range cause

namespace FailsInRange

variable {α β : Type}

theorem ok (a : α) : FailsInRange (.ok a) := by
  intro e he
  cases he

theorem range (cause : RangeError) : FailsInRange (.error (.range cause) : Except TheoryError α) := by
  intro e he
  exact ⟨cause, (Except.error.inj he).symm⟩

theorem bind {x : Except TheoryError α} {f : α → Except TheoryError β} (hx : FailsInRange x)
    (hf : ∀ a, FailsInRange (f a)) : FailsInRange (x >>= f) := by
  intro e he
  cases x with
  | error cause =>
      have hsame : cause = e := Except.error.inj he
      exact hx e (congrArg Except.error hsame)
  | ok a => exact hf a e he

theorem exists_error_iff {x : Except TheoryError α} (hx : FailsInRange x) :
    (∃ cause, x = .error (.range cause)) ↔ ¬∃ a, x = .ok a := by
  cases x with
  | ok a => simp
  | error e =>
      obtain ⟨cause, rfl⟩ := hx e rfl
      simp

end FailsInRange

namespace Note

variable {m n : Note} {p : PitchClass} {k octave : Int}

/-- The MIDI number of a note, from which half steps are counted. -/
def height (n : Note) : Int := n.midi.val

theorem height_eq (n : Note) : n.height = (n.octave + 1) * 12 + n.pitchClass.val := n.midi_val

theorem height_nonneg (n : Note) : 0 ≤ n.height := Int.natCast_nonneg _

theorem height_lt (n : Note) : n.height < 128 := by
  have := n.midi.isLt
  unfold height
  omega

theorem le_iff_height : m ≤ n ↔ m.height ≤ n.height := by
  unfold height
  exact Int.ofNat_le.symm

theorem lt_iff_height : m < n ↔ m.height < n.height := by
  unfold height
  exact Int.ofNat_lt.symm

theorem le_refl (n : Note) : n ≤ n := Nat.le_refl _

theorem le_trans {l : Note} (hlm : l ≤ m) (hmn : m ≤ n) : l ≤ n := Nat.le_trans hlm hmn

theorem eq_of_height_eq (h : m.height = n.height) : m = n := by
  have hmidi : m.midi = n.midi := Fin.ext (Int.ofNat.inj h)
  rw [← ofPitch_midi m, hmidi, ofPitch_midi]

theorem exists_height_eq (hnonneg : 0 ≤ k) (hlt : k < 128) : ∃ n : Note, n.height = k := by
  refine ⟨ofPitch ⟨k.toNat, by omega⟩, ?_⟩
  rw [height, midi_ofPitch]
  exact Int.toNat_of_nonneg hnonneg

theorem exists_height_eq_iff : (∃ n : Note, n.height = k) ↔ 0 ≤ k ∧ k < 128 := by
  constructor
  · rintro ⟨n, rfl⟩
    exact ⟨n.height_nonneg, n.height_lt⟩
  · rintro ⟨hnonneg, hlt⟩
    exact exists_height_eq hnonneg hlt

theorem height_emod (n : Note) : n.height % 12 = n.pitchClass.val := by
  have hlt := n.pitchClass.isLt
  rw [height_eq]
  omega

theorem pitchClass_eq_iff : m.pitchClass = n.pitchClass ↔ m.height % 12 = n.height % 12 := by
  rw [height_emod, height_emod, Fin.ext_iff]
  exact Int.ofNat_inj.symm

theorem pitchClass_eq_transpose_iff :
    m.pitchClass = n.pitchClass.transpose k ↔ m.height % 12 = (n.height + k) % 12 := by
  have hclass := PitchClass.val_transpose n.pitchClass k
  rw [← height_emod] at hclass
  rw [Fin.ext_iff, ← Int.ofNat_inj, hclass, ← height_emod]
  omega

/-! ## Moving notes -/

theorem ofMidi_eq_ok_iff : ofMidi k = .ok n ↔ n.height = k := by
  unfold ofMidi
  constructor
  · intro h
    split at h
    · rw [← Except.ok.inj h, height, midi_ofPitch]
      simp only
      omega
    · simp at h
  · intro h
    have hnonneg := n.height_nonneg
    have hlt := n.height_lt
    rw [dif_pos (by omega)]
    congr 1
    apply eq_of_height_eq
    rw [height, midi_ofPitch]
    simp only
    omega

theorem transpose_eq_ok_iff : n.transpose k = .ok m ↔ m.height = n.height + k := ofMidi_eq_ok_iff

theorem new_eq_ok_iff : new p octave = .ok n ↔ n.pitchClass = p ∧ n.octave = octave := by
  unfold new
  constructor
  · intro h
    split at h
    · rw [← Except.ok.inj h]
      exact ⟨rfl, rfl⟩
    · simp at h
  · rintro ⟨rfl, rfl⟩
    rw [dif_pos n.inRange]

theorem new_eq_ok_iff_height : new p octave = .ok n ↔ n.height = midiNumber p octave := by
  have hlt := p.isLt
  have hclass := n.pitchClass.isLt
  rw [new_eq_ok_iff, height_eq, midiNumber, Fin.ext_iff]
  omega

theorem withOctave_eq_ok_iff :
    n.withOctave octave = .ok m ↔ m.pitchClass = n.pitchClass ∧ m.octave = octave := new_eq_ok_iff

theorem failsInRange_transpose (n : Note) (k : Int) : FailsInRange (n.transpose k) := by
  unfold transpose ofMidi
  split
  · exact .ok _
  · exact .range _

theorem failsInRange_new (p : PitchClass) (octave : Int) : FailsInRange (new p octave) := by
  unfold new
  split
  · exact .ok _
  · exact .range _

theorem failsInRange_withOctave (n : Note) (octave : Int) : FailsInRange (n.withOctave octave) :=
  failsInRange_new n.pitchClass octave

/-! ## The lowest note of a pitch class -/

/-- The notes of a pitch class that are not below a note. -/
def atOrAbove (floor : Note) (p : PitchClass) : Set Note := {n | floor ≤ n ∧ n.pitchClass = p}

theorem isLeast_atOrAbove_iff {floor : Note} :
    IsLeast (floor.atOrAbove p) n ↔
      n.pitchClass = p ∧ floor.height ≤ n.height ∧ n.height < floor.height + 12 := by
  constructor
  · rintro ⟨⟨hle, hclass⟩, hleast⟩
    refine ⟨hclass, le_iff_height.1 hle, ?_⟩
    -- An octave below the lowest note there is no other one at or above the floor.
    by_contra hfar
    have hfloor := floor.height_nonneg
    have hlt := n.height_lt
    obtain ⟨below, hbelow⟩ : ∃ m : Note, m.height = n.height - 12 :=
      exists_height_eq (by omega) (by omega)
    have hsame : below.pitchClass = p := by
      rw [← hclass, pitchClass_eq_iff]
      omega
    have hmem : below ∈ floor.atOrAbove p := ⟨le_iff_height.2 (by omega), hsame⟩
    have hcontra := le_iff_height.1 (hleast hmem)
    omega
  · rintro ⟨rfl, hle, hlt⟩
    refine ⟨⟨le_iff_height.2 hle, rfl⟩, ?_⟩
    rintro m ⟨hm, hclass⟩
    have hfloor := le_iff_height.1 hm
    have hmod := pitchClass_eq_iff.1 hclass
    exact le_iff_height.2 (by omega)

/-- Some note of the pitch class is lowest, if there is any. -/
theorem exists_isLeast_iff {floor : Note} :
    (∃ n, IsLeast (floor.atOrAbove p) n) ↔ ∃ n, floor ≤ n ∧ n.pitchClass = p := by
  constructor
  · rintro ⟨n, hmem, -⟩
    exact ⟨n, hmem⟩
  · rintro ⟨n, hle, rfl⟩
    have hfloor := floor.height_nonneg
    have hheight := le_iff_height.1 hle
    have hlt := n.height_lt
    obtain ⟨least, hleast⟩ : ∃ m : Note, m.height = floor.height + (n.height - floor.height) % 12 :=
      exists_height_eq (by omega) (by omega)
    refine ⟨least, isLeast_atOrAbove_iff.2 ⟨?_, by omega, by omega⟩⟩
    rw [pitchClass_eq_iff]
    omega

end Note

end Arranger
