import Arranger.Midi.Event
import Arranger.Proofs.Decimal.Exact

/-!
# Ticks of rounded beats

A sum of beats is rounded, and so is the product that gives a tick.  Both keep the order, and what
is not finite has no tick: a beat that is not after one with a tick has a tick too, and not a later
one.
-/

namespace Arranger.Midi

open Decimal (HasValue IsUnsigned)

/-- If the second beat is finite then the first one is too, and is not greater. -/
def IsUpTo (beat later : Float) : Prop :=
  ∀ value, HasValue later value → ∃ lesser, HasValue beat lesser ∧ lesser ≤ value

variable {beat later last duration : Float} {ticksPerBeat t : Int}

theorem IsUpTo.refl (beat : Float) : IsUpTo beat beat :=
  fun value hvalue => ⟨value, hvalue, le_rfl⟩

theorem IsUpTo.trans (h : IsUpTo beat later) (h' : IsUpTo later last) : IsUpTo beat last := by
  intro value hvalue
  obtain ⟨lesser, hlesser, hle⟩ := h' value hvalue
  obtain ⟨least, hleast, hleastLe⟩ := h lesser hlesser
  exact ⟨least, hleast, hleastLe.trans hle⟩

theorem isUpTo_add (hbeat : IsUnsigned beat) (hduration : ¬duration < 0.0) :
    IsUpTo beat (beat + duration) :=
  fun _ hsum => hsum.of_add_of_not_lt hbeat hduration

theorem exists_ticks_of_isUpTo (hticks : 0 ≤ ticksPerBeat) (hlater : IsUnsigned later)
    (hupTo : IsUpTo beat later) (ht : ticksAt ticksPerBeat (.real later) = .ok t) :
    ∃ s, ticksAt ticksPerBeat (.real beat) = .ok s ∧ 0 ≤ s ∧ s ≤ t := by
  unfold ticksAt at ht ⊢
  cases hsize : Decimal.ofInteger? ticksPerBeat with
  | none => simp [hsize] at ht
  | some size =>
      simp only [hsize] at ht ⊢
      obtain ⟨factor, hfactor⟩ := Decimal.exists_hasValue_of_ofInteger? hticks hsize
      obtain ⟨product, hproduct⟩ := (hlater.mul hfactor).hasValue_of_nearestWhole ht
      obtain ⟨value, hvalue⟩ : ∃ value, HasValue later value := by
        rcases hlater.mul_cases hfactor with hundefined | hinfinite | hvalue
        · exact absurd hundefined hproduct.decode_ne.1
        · exact absurd hinfinite hproduct.decode_ne.2
        · exact hvalue
      obtain ⟨lesser, hlesser, hlesserLe⟩ := hupTo value hvalue
      obtain ⟨least, hleast, hleastLe⟩ := hlesser.mul_of_le hvalue hlesserLe hfactor hproduct
      rw [Decimal.nearestWhole_of_exactValue? hproduct.exactValue?_eq, Except.ok.injEq] at ht
      refine ⟨_, Decimal.nearestWhole_of_exactValue? hleast.exactValue?_eq, ?_, ?_⟩
      · exact Decimal.roundHalfEven_nonneg hleast.nonneg
      · rw [← ht]
        exact Decimal.roundHalfEven_mono hleastLe

end Arranger.Midi
