import Mathlib.Data.List.Nodup
import Mathlib.Order.Lattice

/-!
# Stable sorting

A stable sort of a list by a key has the elements of the list with their keys ascending, and those
with one key stand in it as they stand in the list.  There is exactly one.
-/

namespace Arranger

variable {α β : Type} [LinearOrder β] {key : α → β} {xs ys zs : List α}

structure IsStableSort (key : α → β) (xs ys : List α) : Prop where
  perm : ys.Perm xs
  ascending : ys.Pairwise fun x y => key x ≤ key y
  stable : ∀ k, ys.filter (key · = k) = xs.filter (key · = k)

theorem isStableSort_mergeSort (key : α → β) (xs : List α) :
    IsStableSort key xs (xs.mergeSort fun x y => key x ≤ key y) := by
  have htrans : ∀ x y z : α, decide (key x ≤ key y) = true → decide (key y ≤ key z) = true →
      decide (key x ≤ key z) = true := by
    simp only [decide_eq_true_eq]
    exact fun x y z => le_trans
  have htotal : ∀ x y : α, (decide (key x ≤ key y) || decide (key y ≤ key x)) = true := by
    simp only [Bool.or_eq_true, decide_eq_true_eq]
    exact fun x y => le_total (key x) (key y)
  refine ⟨List.mergeSort_perm _ _, ?_, fun k => ?_⟩
  · exact (List.pairwise_mergeSort htrans htotal xs).imp of_decide_eq_true
  · have hlevel : (xs.filter (key · = k)).Pairwise fun x y => decide (key x ≤ key y) = true := by
      rw [List.pairwise_filter]
      refine List.pairwise_of_forall fun x y hx hy => ?_
      rw [of_decide_eq_true hx, of_decide_eq_true hy]
      exact decide_eq_true le_rfl
    -- what has one key is sorted as it is, so that the sort keeps its order
    have hkept := (List.sublist_mergeSort htrans htotal hlevel List.filter_sublist).filter
      (key · = k)
    rw [List.filter_filter] at hkept
    simp only [Bool.and_self] at hkept
    have hlength := ((List.mergeSort_perm xs fun x y => key x ≤ key y).filter
      (key · = k)).length_eq
    exact (hkept.eq_of_length hlength.symm).symm

theorem mem_of_filter_key_eq
    {z : α} (h : ys.filter (key · = key z) = zs.filter (key · = key z)) (hz : z ∈ zs) : z ∈ ys := by
  have hmem : z ∈ zs.filter (key · = key z) := List.mem_filter.2 ⟨hz, decide_eq_true rfl⟩
  rw [← h] at hmem
  exact (List.mem_filter.1 hmem).1

/-- Nothing in an ascending list has a smaller key than its head. -/
theorem key_le_of_mem
    {y z : α} (hys : (y :: ys).Pairwise fun x y => key x ≤ key y) (hz : z ∈ y :: ys) :
    key y ≤ key z := by
  rcases List.mem_cons.1 hz with rfl | hz
  · exact le_rfl
  · exact List.rel_of_pairwise_cons hys hz

/-- Ascending lists are the same if they have the same elements of every key in the same order. -/
theorem eq_of_filter_key_eq
    (hys : ys.Pairwise fun x y => key x ≤ key y) (hzs : zs.Pairwise fun x y => key x ≤ key y)
    (h : ∀ k, ys.filter (key · = k) = zs.filter (key · = k)) : ys = zs := by
  induction ys generalizing zs with
  | nil =>
      refine (List.eq_nil_iff_forall_not_mem.2 fun z hz => ?_).symm
      exact List.not_mem_nil (mem_of_filter_key_eq (h (key z)) hz)
  | cons y ys ih =>
      cases zs with
      | nil =>
          have hy := mem_of_filter_key_eq (h (key y)).symm List.mem_cons_self
          exact absurd hy List.not_mem_nil
      | cons z zs =>
          have hyz := key_le_of_mem hys (mem_of_filter_key_eq (h (key z)) List.mem_cons_self)
          have hzy := key_le_of_mem hzs (mem_of_filter_key_eq (h (key y)).symm List.mem_cons_self)
          have hkey : key z = key y := le_antisymm hzy hyz
          have hheads := h (key y)
          simp only [List.filter_cons, hkey, decide_true, if_true] at hheads
          obtain ⟨rfl, -⟩ := List.cons.inj hheads
          have htails : ys = zs := by
            refine ih hys.of_cons hzs.of_cons fun k => ?_
            have hk := h k
            rw [List.filter_cons, List.filter_cons] at hk
            split at hk
            · exact (List.cons.inj hk).2
            · exact hk
          rw [htails]

/-- Only one order of a list is ascending if no two elements have the same key. -/
theorem eq_of_perm_of_ascending
    (hperm : ys.Perm xs) (hys : ys.Pairwise fun x y => key x ≤ key y)
    (hxs : xs.Pairwise fun x y => key x < key y) : ys = xs := by
  have hnodup : (xs.map key).Nodup := List.pairwise_map.2 (hxs.imp ne_of_lt)
  refine hperm.eq_of_pairwise (fun x y hx hy hxy hyx => ?_) hys (hxs.imp le_of_lt)
  exact List.inj_on_of_nodup_map hnodup (hperm.mem_iff.1 hx) hy (le_antisymm hxy hyx)

theorem isStableSort_iff :
    IsStableSort key xs ys ↔ ys = xs.mergeSort fun x y => key x ≤ key y := by
  have hsort := isStableSort_mergeSort key xs
  constructor
  · intro hys
    apply eq_of_filter_key_eq hys.ascending hsort.ascending
    intro k
    rw [hys.stable, hsort.stable]
  · rintro rfl
    exact hsort

end Arranger
