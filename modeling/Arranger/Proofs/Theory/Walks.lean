import Arranger.Proofs.Theory.Notes
import Arranger.Theory.Table
import Mathlib.Data.List.Nodup

/-!
# Walks by lookups

Every note stands in the tables at its height, so no lookup of a walk fails.  A move fails only
where it would leave the range, and a note that a walk reaches lies as many half steps from the
first one as the moves that succeed add up to.
-/

namespace Arranger

namespace PitchClass

/-! ## The circle of pitch classes -/

theorem transpose_zero (p : PitchClass) : p.transpose 0 = p := by
  have hlt := p.isLt
  have hval := p.val_transpose 0
  apply Fin.ext
  omega

theorem transpose_octave (p : PitchClass) : p.transpose 12 = p := by
  have hlt := p.isLt
  have hval := p.val_transpose 12
  apply Fin.ext
  omega

theorem transpose_transpose (p : PitchClass) (j k : Int) :
    (p.transpose j).transpose k = p.transpose (j + k) := by
  have hfirst := p.val_transpose j
  have hsecond := (p.transpose j).val_transpose k
  have hboth := p.val_transpose (j + k)
  apply Fin.ext
  omega

end PitchClass

/-! ## Moves -/

namespace Move

variable {move : Move} {m n : Note}

/-- The half steps by which a move is to move a note. -/
def interval (n : Note) : Move → Int
  | sharp => 1
  | flat => -1
  | halfSteps count => count
  | wholeSteps count => count * 2
  | toOctave octave => (octave - n.octave) * 12

theorem apply_eq_ok_iff : move.apply n = .ok m ↔ m.height = n.height + move.interval n := by
  cases move with
  | sharp => rw [apply, Note.sharp, Note.transpose_eq_ok_iff, interval]
  | flat => rw [apply, Note.flat, Note.transpose_eq_ok_iff, interval]
  | halfSteps count => rw [apply, Note.transpose_eq_ok_iff, interval]
  | wholeSteps count => rw [apply, Note.addWholeSteps, Note.transpose_eq_ok_iff, interval]
  | toOctave octave =>
      have hsum : n.height + (octave - n.octave) * 12 = midiNumber n.pitchClass octave := by
        rw [Note.height_eq, midiNumber]
        omega
      rw [apply, Note.withOctave, Note.new_eq_ok_iff_height, interval, hsum]

theorem failsInRange_apply (move : Move) (n : Note) : FailsInRange (move.apply n) := by
  cases move with
  | sharp => exact n.failsInRange_transpose 1
  | flat => exact n.failsInRange_transpose (-1)
  | halfSteps count => exact n.failsInRange_transpose count
  | wholeSteps count => exact n.failsInRange_transpose (count * 2)
  | toOctave octave => exact n.failsInRange_withOctave octave

theorem exists_apply_iff :
    (∃ m, move.apply n = .ok m) ↔
      0 ≤ n.height + move.interval n ∧ n.height + move.interval n < 128 := by
  simp only [apply_eq_ok_iff]
  exact Note.exists_height_eq_iff

end Move

/-! ## Walks -/

namespace Note

variable {m n : Note}

/-- The last note that a walk reaches. -/
def walkEnd (n : Note) : List Move → Note
  | [] => n
  | move :: rest => match move.apply n with
    | .ok next => next.walkEnd rest
    | .error _ => n.walkEnd rest

/-- What the half steps of the moves that succeed add up to. -/
def walkInterval (n : Note) : List Move → Int
  | [] => 0
  | move :: rest => match move.apply n with
    | .ok next => move.interval n + next.walkInterval rest
    | .error _ => n.walkInterval rest

/-- A longer walk goes on from the note at which the shorter one ends. -/
theorem walk_append (n : Note) (moves later : List Move) :
    n.walk (moves ++ later) = n.walk moves ++ (n.walkEnd moves).walk later := by
  induction moves generalizing n with
  | nil => rfl
  | cons move rest ih =>
      rw [List.cons_append, walk, walk, walkEnd]
      cases move.apply n with
      | ok next => exact congrArg _ (ih next)
      | error e => exact congrArg _ (ih n)

theorem height_walkEnd (n : Note) (moves : List Move) :
    (n.walkEnd moves).height = n.height + n.walkInterval moves := by
  induction moves generalizing n with
  | nil => exact (Int.add_zero _).symm
  | cons move rest ih =>
      rw [walkEnd, walkInterval]
      cases hmove : move.apply n with
      | ok next =>
          have hstep := Move.apply_eq_ok_iff.1 hmove
          calc (next.walkEnd rest).height
            _ = next.height + next.walkInterval rest := ih next
            _ = n.height + move.interval n + next.walkInterval rest := by rw [hstep]
            _ = n.height + (move.interval n + next.walkInterval rest) := Int.add_assoc ..
      | error e => exact ih n

example : (ofPitch 126).walkInterval [.sharp, .sharp, .wholeSteps (-3), .flat] = -6 := by
  decide +kernel

theorem pitchClass_walkEnd (n : Note) (moves : List Move) :
    (n.walkEnd moves).pitchClass = n.pitchClass.transpose (n.walkInterval moves) := by
  rw [pitchClass_eq_transpose_iff, height_walkEnd]

/-! ## Comparisons -/

theorem eq_iff_midi : m = n ↔ m.midi = n.midi := by
  constructor
  · intro h
    rw [h]
  · intro h
    apply eq_of_height_eq
    rw [height, height, h]

theorem getElem?_all_eq_some_iff {i : Nat} : all[i]? = some n ↔ n.midi.val = i := by
  rw [List.getElem?_eq_some_iff]
  simp only [all, List.length_map, List.length_finRange, List.getElem_map, List.getElem_finRange]
  constructor
  · rintro ⟨hi, rfl⟩
    rw [midi_ofPitch]
    rfl
  · rintro rfl
    exact ⟨n.midi.isLt, n.ofPitch_midi⟩

theorem mem_all (n : Note) : n ∈ all := List.mem_of_getElem? (getElem?_all_eq_some_iff.2 rfl)

/-- Mixing can make one hash of different parts.  That it does not for notes shows only by going
through all of them. -/
theorem nodup_hash : (all.map hash).Nodup := by
  decide +kernel

theorem hash_eq_iff_midi : hash m = hash n ↔ m.midi = n.midi := by
  rw [← eq_iff_midi]
  constructor
  · exact List.inj_on_of_nodup_map nodup_hash m.mem_all n.mem_all
  · intro h
    rw [h]

/-- Two notes compare as their numbers do, also in what is derived from the strict order and from
equality. -/
structure ComparesByNumber (a b : Note) : Prop where
  eq : a = b ↔ a.midi = b.midi
  hash : hash a = hash b ↔ a.midi = b.midi
  lt : a < b ↔ a.midi < b.midi
  le : a < b ∨ a = b ↔ a.midi ≤ b.midi
  gt : ¬a < b ∧ a ≠ b ↔ b.midi < a.midi
  ge : ¬a < b ↔ b.midi ≤ a.midi

theorem comparesByNumber (a b : Note) : ComparesByNumber a b where
  eq := eq_iff_midi
  hash := hash_eq_iff_midi
  lt := Iff.rfl
  le := by
    rw [eq_iff_midi, Fin.ext_iff]
    exact Nat.le_iff_lt_or_eq.symm
  gt := by
    rw [ne_eq, eq_iff_midi, Fin.ext_iff, ← not_or]
    exact (not_congr Nat.le_iff_lt_or_eq.symm).trans Nat.not_le
  ge := Nat.not_lt

end Note

/-! ## Tables -/

namespace MidiTable

variable {n : Note}

/-- The tables in which every note stands at the place of its number. -/
def full : MidiTable := ⟨Note.all, Note.all.zipIdx.reverse⟩

theorem noteAt_eq (p : Pitch) : noteAt p.val = .ok (Note.ofPitch p) :=
  Note.new_eq_ok_iff.2 ⟨rfl, rfl⟩

theorem build_eq : build = .ok full := by
  have hnotes : (List.range 128).mapM noteAt = .ok Note.all := by
    rw [mapM_eq_ok_iff, ← List.map_coe_finRange_eq_range, Note.all, List.forall₂_map_left_iff,
      List.forall₂_map_right_iff, List.forall₂_same]
    intro p _
    exact noteAt_eq p
  rw [build, hnotes]
  rfl

theorem mem_numbers_full_iff {i : Nat} : (n, i) ∈ full.numbers ↔ n.midi.val = i := by
  rw [full, List.mem_reverse, List.mem_zipIdx_iff_getElem?, Note.getElem?_all_eq_some_iff]

/-- The number of a note is found: the note has an entry, and no other note has its hash and is
equal to it. -/
theorem midi?_full (n : Note) : full.midi? n = some n.midi.val := by
  have hentry : (n, n.midi.val) ∈ full.numbers := mem_numbers_full_iff.2 rfl
  unfold midi?
  cases hfound : full.numbers.find? fun entry => hash entry.1 == hash n && entry.1 == n with
  | none =>
      have hother := List.find?_eq_none.1 hfound _ hentry
      simp at hother
  | some entry =>
      obtain ⟨m, i⟩ := entry
      have hmem := List.mem_of_find?_eq_some hfound
      have hsame := List.find?_some hfound
      simp only [Bool.and_eq_true, beq_iff_eq] at hsame
      rw [Option.map_some, ← mem_numbers_full_iff.1 hmem, hsame.2]

theorem ofMidi?_full (value : Int) : full.ofMidi? value = some (Note.ofMidi value) := by
  unfold ofMidi? Note.ofMidi
  split
  · next hrange =>
      have hlt : value.toNat < 128 := by omega
      have hnote : Note.all[value.toNat]? = some (Note.ofPitch ⟨value.toNat, hlt⟩) := by
        rw [Note.getElem?_all_eq_some_iff, Note.midi_ofPitch]
      rw [full, hnote]
      rfl
  · rfl

theorem transpose?_full (n : Note) (halfSteps : Int) :
    full.transpose? n halfSteps = some (n.transpose halfSteps) := by
  rw [transpose?, midi?_full, Option.bind_eq_bind, Option.bind_some, ofMidi?_full]
  rfl

theorem move?_full (n : Note) (move : Move) : full.move? n move = some (move.apply n) := by
  cases move with
  | sharp => exact transpose?_full n 1
  | flat => exact transpose?_full n (-1)
  | halfSteps count => exact transpose?_full n count
  | wholeSteps count => exact transpose?_full n (count * 2)
  | toOctave octave => rfl

/-- A walk by lookups is the walk by arithmetic. -/
theorem walk?_full (n : Note) (moves : List Move) : full.walk? n moves = some (n.walk moves) := by
  induction moves generalizing n with
  | nil => rfl
  | cons move rest ih =>
      rw [walk?, Note.walk, move?_full, Option.bind_eq_bind, Option.bind_some]
      cases move.apply n with
      | ok next =>
          simp only [ih next]
          rfl
      | error e =>
          simp only [ih n]
          rfl

/-- A note lies an interval from a first one: both tables hold it at its height, which is that of
its parts and of the interval, and its pitch class is the one to which the interval leads. -/
structure Locates (t : MidiTable) (first : Note) (interval : Int) (n : Note) : Prop where
  number : t.midi? n = some n.midi.val
  note : t.notes[n.midi.val]? = some n
  parts : (n.midi.val : Int) = (n.octave + 1) * 12 + n.pitchClass.val
  sum : (n.midi.val : Int) = first.midi.val + interval
  pitchClass : n.pitchClass = first.pitchClass.transpose interval

theorem locates_walkEnd (n : Note) (moves : List Move) :
    full.Locates n (n.walkInterval moves) (n.walkEnd moves) where
  number := midi?_full _
  note := Note.getElem?_all_eq_some_iff.2 rfl
  parts := Note.height_eq _
  sum := n.height_walkEnd moves
  pitchClass := n.pitchClass_walkEnd moves

end MidiTable

end Arranger
