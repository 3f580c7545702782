import Arranger.Proofs.Theory.Voicing
import Mathlib

/-!
# The degrees of a scale

The degrees count the tones of a scale up and down from the base: every height whose distance from
the base leaves a number of the formula modulo twelve is the height of exactly one degree, and a
higher degree is higher.  A degree is a note if its height is in range, so that the degrees of notes
form an interval, and the notes of some octaves are all notes of the scale that lie in them.
-/

namespace Arranger

/-! ## Formulas -/

namespace ScaleType

theorem length_formula_pos (t : ScaleType) : 0 < t.formula.length := by
  cases t <;> decide

theorem pairwise_formula (t : ScaleType) : t.formula.Pairwise (· < ·) := by
  cases t <;> decide

theorem lt_of_mem_formula (t : ScaleType) : ∀ k ∈ t.formula, k < 12 := by
  cases t <;> decide

end ScaleType

namespace Scale

variable {s : Scale} {d e : Int} {h k : Int} {m n : Note} {ns : List Note}

/-! ## Offsets -/

/-- The number of tones in an octave. -/
def size (s : Scale) : Int := s.formula.length

theorem size_pos (s : Scale) : 0 < s.size :=
  Int.natCast_pos.2 s.type.length_formula_pos

theorem exists_place (s : Scale) (d : Int) :
    ∃ (octave : Int) (index : Nat), index < s.formula.length ∧ d = octave * s.size + index := by
  have hsize := s.size_pos
  have hnonneg := Int.emod_nonneg d hsize.ne'
  have hlt := Int.emod_lt_of_pos d hsize
  have hindex : ((d % s.size).toNat : Int) = d % s.size := Int.toNat_of_nonneg hnonneg
  refine ⟨d / s.size, (d % s.size).toNat, ?_, ?_⟩
  · exact Int.ofNat_lt.1 (hindex ▸ hlt)
  · rw [hindex, Int.ediv_mul_add_emod]

theorem offset_place (s : Scale) (octave : Int) {index : Nat} (hindex : index < s.formula.length) :
    s.offset (octave * s.size + index) = octave * 12 + (s.formula[index] : Nat) := by
  have hsize := s.size_pos
  have hlt : (index : Int) < s.size := Int.ofNat_lt.2 hindex
  have hplace : (octave * s.size + index) / s.size = octave ∧
      (octave * s.size + index) % s.size = index :=
    (Int.ediv_emod_unique hsize).2 ⟨by rw [Int.add_comm, Int.mul_comm], Int.natCast_nonneg _, hlt⟩
  have hdiv : (octave * s.size + index).fdiv s.size = octave := by
    rw [Int.fdiv_eq_ediv_of_nonneg _ hsize.le, hplace.1]
  have hmod : (octave * s.size + index).fmod s.size = index := by
    rw [Int.fmod_eq_emod_of_nonneg _ hsize.le, hplace.2]
  change (octave * s.size + index).fdiv s.size * 12 +
    ((s.formula[((octave * s.size + index).fmod s.size).toNat]?.getD 0 : Nat) : Int) = _
  rw [hdiv, hmod, Int.toNat_natCast, List.getElem?_eq_getElem hindex, Option.getD_some]

/-- Within an octave the formula ascends, and the octave above lies beyond all of it. -/
theorem offset_strictMono (s : Scale) : StrictMono s.offset := by
  intro d e hlt
  obtain ⟨p, i, hi, rfl⟩ := s.exists_place d
  obtain ⟨q, j, hj, rfl⟩ := s.exists_place e
  have hlow := s.type.lt_of_mem_formula _ (List.getElem_mem hi)
  have hiSize : (i : Int) < s.size := Int.ofNat_lt.2 hi
  have hjSize : (j : Int) < s.size := Int.ofNat_lt.2 hj
  rw [s.offset_place p hi, s.offset_place q hj]
  rcases lt_trichotomy p q with hpq | rfl | hqp
  · change s.formula[i] < 12 at hlow
    omega
  · have hij : i < j := by omega
    have hformula := List.pairwise_iff_getElem.1 s.type.pairwise_formula i j hi hj hij
    change s.formula[i] < s.formula[j] at hformula
    omega
  · have hoctave : (q + 1) * s.size ≤ p * s.size :=
      Int.mul_le_mul_of_nonneg_right hqp s.size_pos.le
    rw [Int.add_mul, Int.one_mul] at hoctave
    omega

theorem offset_add_size (s : Scale) (d : Int) : s.offset (d + s.size) = s.offset d + 12 := by
  obtain ⟨octave, index, hindex, rfl⟩ := s.exists_place d
  have hplace : octave * s.size + index + s.size = (octave + 1) * s.size + index := by
    rw [Int.add_mul, Int.one_mul]
    omega
  rw [hplace, s.offset_place _ hindex, s.offset_place _ hindex]
  omega

/-- Every octave begins at the pitch class of the base. -/
theorem offset_mul_size (s : Scale) (octaves : Int) :
    s.offset (octaves * s.size) = octaves * 12 := by
  have hfirst := s.type.length_formula_pos
  have hbase : (s.formula[0] : Int) = 0 := by
    have hzero := s.offset_place 0 hfirst
    rw [Int.zero_mul, Int.zero_mul, Int.zero_add, Int.natCast_zero, offset_zero] at hzero
    omega
  have hplace := s.offset_place octaves hfirst
  rw [Int.natCast_zero, Int.add_zero] at hplace
  omega

/-! ## Heights -/

/-- The heights of a scale, which go on in both directions. -/
def heights (s : Scale) : Set Int := {h | ∃ k ∈ s.formula, (h - s.base.height) % 12 = (k : Nat)}

/-- No height of the scale is passed over. -/
theorem mem_heights_iff : h ∈ s.heights ↔ ∃ d, h = s.base.height + s.offset d := by
  constructor
  · rintro ⟨k, hk, hmod⟩
    obtain ⟨index, hindex, rfl⟩ := List.getElem_of_mem hk
    refine ⟨(h - s.base.height) / 12 * s.size + index, ?_⟩
    rw [s.offset_place _ hindex]
    omega
  · rintro ⟨d, rfl⟩
    obtain ⟨octave, index, hindex, rfl⟩ := s.exists_place d
    have hlt : s.formula[index] < 12 := s.type.lt_of_mem_formula _ (List.getElem_mem hindex)
    refine ⟨s.formula[index], List.getElem_mem hindex, ?_⟩
    rw [s.offset_place _ hindex]
    omega

/-- The heights of the octaves above the base. -/
def heightsWithin (s : Scale) (octaves : Int) : Set Int :=
  s.heights ∩ Set.Ico s.base.height (s.base.height + 12 * octaves)

theorem mem_heightsWithin_iff {octaves : Int} :
    h ∈ s.heightsWithin octaves ↔
      ∃ d, 0 ≤ d ∧ d < octaves * s.size ∧ h = s.base.height + s.offset d := by
  have hzero := s.offset_zero
  have hend := s.offset_mul_size octaves
  have hlower : ∀ d, 0 ≤ s.offset d ↔ 0 ≤ d := by
    intro d
    have hle := s.offset_strictMono.le_iff_le (a := 0) (b := d)
    rwa [hzero] at hle
  have hupper : ∀ d, s.offset d < octaves * 12 ↔ d < octaves * s.size := by
    intro d
    have hlt := s.offset_strictMono.lt_iff_lt (a := d) (b := octaves * s.size)
    rwa [hend] at hlt
  constructor
  · rintro ⟨hmem, hle, hlt⟩
    obtain ⟨d, rfl⟩ := mem_heights_iff.1 hmem
    exact ⟨d, (hlower d).1 (by omega), (hupper d).1 (by omega), rfl⟩
  · rintro ⟨d, hd, hlt, rfl⟩
    have hoffset := (hlower d).2 hd
    have hbelow := (hupper d).2 hlt
    exact ⟨mem_heights_iff.2 ⟨d, rfl⟩, by omega, by omega⟩

/-- The last height of some octaves is that of the degree in front of the next octave. -/
theorem isGreatest_heightsWithin {octaves last : Int} (hoctaves : 1 ≤ octaves) :
    IsGreatest (s.heightsWithin octaves) last ↔
      last = s.base.height + s.offset (octaves * s.size - 1) := by
  have hpos : 0 < octaves * s.size := Int.mul_pos (by omega) s.size_pos
  have hgreatest :
      IsGreatest (s.heightsWithin octaves) (s.base.height + s.offset (octaves * s.size - 1)) := by
    constructor
    · exact mem_heightsWithin_iff.2 ⟨_, by omega, by omega, rfl⟩
    · intro h hmem
      obtain ⟨d, -, hlt, rfl⟩ := mem_heightsWithin_iff.1 hmem
      have hle := s.offset_strictMono.monotone (show d ≤ octaves * s.size - 1 by omega)
      omega
  constructor
  · intro hlast
    exact hlast.unique hgreatest
  · rintro rfl
    exact hgreatest

/-! ## Degrees -/

theorem degree_eq_ok_iff : s.degree d = .ok n ↔ n.height = s.base.height + s.offset d :=
  Note.transpose_eq_ok_iff

/-- The degrees that are notes. -/
def degrees (s : Scale) : Set Int := {d | ∃ n, s.degree d = .ok n}

theorem mem_degrees_iff :
    d ∈ s.degrees ↔ 0 ≤ s.base.height + s.offset d ∧ s.base.height + s.offset d < 128 := by
  change (∃ n, s.degree d = .ok n) ↔ _
  simp only [degree_eq_ok_iff]
  exact Note.exists_height_eq_iff

theorem ordConnected_degrees (s : Scale) : s.degrees.OrdConnected := by
  refine ⟨fun d hd e he i hi => ?_⟩
  have hlow := s.offset_strictMono.monotone hi.1
  have hhigh := s.offset_strictMono.monotone hi.2
  rw [mem_degrees_iff] at hd he ⊢
  omega

theorem degree_zero (s : Scale) : s.degree 0 = .ok s.base := by
  rw [degree_eq_ok_iff, offset_zero, Int.add_zero]

theorem lt_of_degree (hd : s.degree d = .ok m) (he : s.degree e = .ok n) : m < n ↔ d < e := by
  rw [Note.lt_iff_height, degree_eq_ok_iff.1 hd, degree_eq_ok_iff.1 he, Int.add_lt_add_iff_left]
  exact s.offset_strictMono.lt_iff_lt

theorem height_mem_of_degree (hd : s.degree d = .ok n) : n.height ∈ s.heights :=
  mem_heights_iff.2 ⟨d, degree_eq_ok_iff.1 hd⟩

theorem existsUnique_degree (hn : n.height ∈ s.heights) : ∃! d, s.degree d = .ok n := by
  obtain ⟨d, hd⟩ := mem_heights_iff.1 hn
  refine ⟨d, degree_eq_ok_iff.2 hd, ?_⟩
  intro e he
  have hheight := degree_eq_ok_iff.1 he
  exact s.offset_strictMono.injective (by omega)

theorem octave_of_degree (hd : s.degree d = .ok m) (he : s.degree (d + s.size) = .ok n) :
    n.pitchClass = m.pitchClass ∧ n.octave = m.octave + 1 := by
  have hheight : n.height = m.height + 12 := by
    rw [degree_eq_ok_iff.1 hd, degree_eq_ok_iff.1 he, offset_add_size]
    omega
  have hclass : n.pitchClass = m.pitchClass := by
    rw [Note.pitchClass_eq_iff]
    omega
  have hm := m.height_eq
  have hn := n.height_eq
  rw [hclass] at hn
  exact ⟨hclass, by omega⟩

/-! ## Notes of octaves -/

theorem degreesFrom_eq_ok_iff {count : Nat} :
    s.degreesFrom count d = .ok ns ↔
      ns.map Note.height =
        (List.range count).map fun i : Nat => s.base.height + s.offset (d + i) := by
  induction count generalizing d ns with
  | zero => simp [degreesFrom, eq_comm]
  | succ count ih =>
      have hshift : ∀ i : Nat, d + ((i + 1 : Nat) : Int) = d + 1 + i := by omega
      simp only [degreesFrom, bind_eq_ok_iff, degree_eq_ok_iff, ih, pure, Except.pure,
        Except.ok.injEq, List.range_succ_eq_map, List.map_cons, List.map_map, Function.comp_def,
        Nat.succ_eq_add_one, hshift, List.map_eq_cons_iff, Int.natCast_zero, Int.add_zero]
      constructor
      · rintro ⟨n, hn, rest, hrest, rfl⟩
        exact ⟨n, rest, rfl, hn, hrest⟩
      · rintro ⟨n, rest, rfl, hn, hrest⟩
        exact ⟨n, hn, rest, hrest, rfl⟩

theorem failsInRange_degreesFrom (s : Scale) (count : Nat) (d : Int) :
    FailsInRange (s.degreesFrom count d) := by
  induction count generalizing d with
  | zero => exact .ok _
  | succ count ih =>
      refine (Note.failsInRange_transpose _ _).bind fun note => ?_
      exact (ih (d + 1)).bind fun more => .ok _

/-- The heights of the degrees in some octaves, in order. -/
def ladder (s : Scale) (octaves : Int) : List Int :=
  (List.range (s.formula.length * octaves).toNat).map fun i : Nat => s.base.height + s.offset i

theorem mem_ladder_iff {octaves : Int} : h ∈ s.ladder octaves ↔ h ∈ s.heightsWithin octaves := by
  have hcount : ∀ i : Nat,
      i < (s.formula.length * octaves).toNat ↔ (i : Int) < octaves * s.size := by
    intro i
    rw [Int.lt_toNat, Int.mul_comm]
    rfl
  rw [ladder, List.mem_map, mem_heightsWithin_iff]
  constructor
  · rintro ⟨i, hi, rfl⟩
    exact ⟨i, Int.natCast_nonneg i, (hcount i).1 (List.mem_range.1 hi), rfl⟩
  · rintro ⟨d, hd, hlt, rfl⟩
    obtain ⟨i, rfl⟩ := Int.eq_ofNat_of_zero_le hd
    exact ⟨i, List.mem_range.2 ((hcount i).2 hlt), rfl⟩

theorem pairwise_ladder (s : Scale) (octaves : Int) : (s.ladder octaves).Pairwise (· < ·) := by
  refine List.pairwise_lt_range.map _ fun i j hij => ?_
  have hlt := s.offset_strictMono (Int.ofNat_lt.2 hij)
  omega

theorem notes_eq_ok_iff {octaves : Int} :
    s.notes octaves = .ok ns ↔ ns.map Note.height = s.ladder octaves := by
  rw [notes, degreesFrom_eq_ok_iff]
  simp only [Int.zero_add, ladder]

theorem pairwise_of_notes {octaves : Int} (h : s.notes octaves = .ok ns) :
    ns.Pairwise (· < ·) := by
  have hpairwise := s.pairwise_ladder octaves
  rw [← notes_eq_ok_iff.1 h, List.pairwise_map] at hpairwise
  exact hpairwise.imp Note.lt_iff_height.2

theorem mem_notes_iff {octaves : Int} (h : s.notes octaves = .ok ns) :
    n ∈ ns ↔ n.height ∈ s.heightsWithin octaves := by
  have hinjective : Function.Injective Note.height := fun _ _ => Note.eq_of_height_eq
  rw [← mem_ladder_iff, ← notes_eq_ok_iff.1 h, List.mem_map_of_injective hinjective]

/-- Some octaves have notes if all of their heights are in range. -/
theorem exists_notes_iff {octaves : Int} :
    (∃ ns, s.notes octaves = .ok ns) ↔ ∀ h ∈ s.heightsWithin octaves, h < 128 := by
  have hbase := s.base.height_nonneg
  simp only [notes_eq_ok_iff, ← mem_ladder_iff]
  constructor
  · rintro ⟨ns, hns⟩ h hmem
    rw [← hns] at hmem
    obtain ⟨n, -, rfl⟩ := List.mem_map.1 hmem
    exact n.height_lt
  · intro hlt
    have hrange : s.ladder octaves ∈ Set.range (List.map Note.height) := by
      rw [Set.range_list_map]
      intro h hmem
      have hle := (mem_ladder_iff.1 hmem).2.1
      exact Note.exists_height_eq (by omega) (hlt h hmem)
    exact hrange

/-- Some octaves are too many if their last height is beyond the range. -/
theorem not_exists_notes_iff {octaves : Int} :
    (¬∃ ns, s.notes octaves = .ok ns) ↔
      1 ≤ octaves ∧ ∃ last, IsGreatest (s.heightsWithin octaves) last ∧ 127 < last := by
  rw [exists_notes_iff]
  constructor
  · intro hnot
    obtain ⟨h, hmem, hhigh⟩ : ∃ h ∈ s.heightsWithin octaves, ¬h < 128 := by simpa using hnot
    have hoctaves : 1 ≤ octaves := by
      have hle := hmem.2.1
      have hlt := hmem.2.2
      omega
    have hlast := (isGreatest_heightsWithin (s := s) hoctaves).2 rfl
    have hle := hlast.2 hmem
    exact ⟨hoctaves, _, hlast, by omega⟩
  · rintro ⟨-, last, hlast, hhigh⟩ hlt
    have := hlt last hlast.1
    omega

/-- The degrees of a scale that are notes form an interval around the base.  On it they enumerate
the notes of the scale, each once and in ascending order, and the tones of the next octave follow
those of the one below.  So the notes of some octaves are those of the scale that lie in them, in
ascending order, and there are none for the only reason that the last one is beyond the range. -/
theorem degrees_enumerate (s : Scale) :
    s.degrees.OrdConnected ∧ s.degree 0 = .ok s.base ∧
      (∀ d e m n, s.degree d = .ok m → s.degree e = .ok n → (m < n ↔ d < e)) ∧
      (∀ d n, s.degree d = .ok n → n.height ∈ s.heights) ∧
      (∀ n : Note, n.height ∈ s.heights → ∃! d, s.degree d = .ok n) ∧
      (∀ d m n, s.degree d = .ok m → s.degree (d + s.formula.length) = .ok n →
        n.pitchClass = m.pitchClass ∧ n.octave = m.octave + 1) ∧
      ∀ octaves,
        (∀ ns, s.notes octaves = .ok ns →
          ns.Pairwise (· < ·) ∧ ∀ n, n ∈ ns ↔ n.height ∈ s.heightsWithin octaves) ∧
        ((∃ ns, s.notes octaves = .ok ns) ∨ ∃ cause, s.notes octaves = .error (.range cause)) ∧
        ((∃ cause, s.notes octaves = .error (.range cause)) ↔
          1 ≤ octaves ∧ ∃ last, IsGreatest (s.heightsWithin octaves) last ∧ 127 < last) := by
  refine ⟨s.ordConnected_degrees, s.degree_zero, ?_, ?_, ?_, ?_, ?_⟩
  · intro d e m n hd he
    exact lt_of_degree hd he
  · intro d n hd
    exact height_mem_of_degree hd
  · intro n hn
    exact existsUnique_degree hn
  · intro d m n hd he
    exact octave_of_degree hd he
  · intro octaves
    have hfails := s.failsInRange_degreesFrom (s.formula.length * octaves).toNat 0
    refine ⟨fun ns hns => ⟨pairwise_of_notes hns, fun n => mem_notes_iff hns⟩, ?_, ?_⟩
    · by_cases hns : ∃ ns, s.notes octaves = .ok ns
      · exact .inl hns
      · exact .inr (hfails.exists_error_iff.2 hns)
    · rw [← not_exists_notes_iff]
      exact hfails.exists_error_iff

/-- Below the base is the last tone of the formula, and the sixth octave ends a half step above the
last note of all. -/
theorem degrees_enumerate_bluesScale :
    bluesScale.degree (-1) = .ok (Note.ofPitch 56) ∧ bluesScale.degree 5 = .ok (Note.ofPitch 68) ∧
      (Note.ofPitch 68).octave = (Note.ofPitch 56).octave + 1 ∧
      ∃ cause, bluesScale.notes 6 = .error (.range cause) := by
  have hbelow : bluesScale.degree (-1) = .ok (Note.ofPitch 56) := by decide +kernel
  have habove : bluesScale.degree 5 = .ok (Note.ofPitch 68) := by decide +kernel
  obtain ⟨-, -, -, -, -, hoctave, hnotes⟩ := degrees_enumerate bluesScale
  have hlast : IsGreatest (bluesScale.heightsWithin 6) 128 :=
    (isGreatest_heightsWithin (by decide)).2 (by decide +kernel)
  exact ⟨hbelow, habove, (hoctave (-1) _ _ hbelow habove).2,
    (hnotes 6).2.2.2 ⟨by decide, 128, hlast, by decide⟩⟩

end Scale

end Arranger
