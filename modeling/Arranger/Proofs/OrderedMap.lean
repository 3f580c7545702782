import Arranger.Proofs.Named
import Mathlib.Data.List.Nodup

/-!
# Maps that keep the order of their keys

A map knows its keys in the order in which they came.  A list of elements with distinct names is
such a map, and what is done to the list by name is done to the map.
-/

namespace Arranger

/-- A map from texts, with the texts that have a value in an order. -/
@[ext]
structure OrderedMap (β : Type) where
  keys : List String
  value? : String → Option β
  nodup : keys.Nodup
  mem_keys_iff : ∀ key, key ∈ keys ↔ value? key ≠ none

namespace OrderedMap

variable {α β : Type}

def has (m : OrderedMap β) (key : String) : Bool := (m.value? key).isSome

/-- Gives a key a value.  A key that has one keeps its place, and a new key comes last. -/
def put (m : OrderedMap β) (key : String) (x : β) : OrderedMap β where
  keys := if key ∈ m.keys then m.keys else m.keys ++ [key]
  value? := Function.update m.value? key (some x)
  nodup := by
    split
    · exact m.nodup
    · next hnew => exact List.concat_eq_append ▸ m.nodup.concat hnew
  mem_keys_iff := by
    intro other
    by_cases heq : other = key
    · subst heq
      rw [Function.update_self]
      split <;> simp [*]
    · rw [Function.update_of_ne heq, ← m.mem_keys_iff]
      split <;> simp [heq]

/-- Takes a key away; the others keep their order. -/
def remove (m : OrderedMap β) (key : String) : OrderedMap β where
  keys := m.keys.erase key
  value? := Function.update m.value? key none
  nodup := m.nodup.erase key
  mem_keys_iff := by
    intro other
    rw [m.nodup.mem_erase_iff]
    by_cases heq : other = key
    · simp [heq]
    · rw [Function.update_of_ne heq, ← m.mem_keys_iff]
      exact and_iff_right heq

/-- Changes the value of a key. -/
def update (m : OrderedMap β) (key : String) (f : β → β) : OrderedMap β where
  keys := m.keys
  value? := Function.update m.value? key ((m.value? key).map f)
  nodup := m.nodup
  mem_keys_iff := by
    intro other
    by_cases heq : other = key
    · simp [heq, m.mem_keys_iff]
    · rw [Function.update_of_ne heq, m.mem_keys_iff]

variable {m : OrderedMap β} {key : String}

@[simp]
theorem value?_put_self (x : β) : (m.put key x).value? key = some x := Function.update_self ..

@[simp]
theorem value?_remove_self : (m.remove key).value? key = none := Function.update_self ..

@[simp]
theorem value?_update_self (f : β → β) : (m.update key f).value? key = (m.value? key).map f :=
  Function.update_self ..

theorem remove_of_not_has (h : m.has key = false) : m.remove key = m := by
  have hnone : m.value? key = none := by simpa [has] using h
  refine OrderedMap.ext (List.erase_of_not_mem ?_) ?_
  · simpa [m.mem_keys_iff] using hnone
  · exact (congrArg _ hnone.symm).trans (Function.update_eq_self key m.value?)

theorem update_of_not_has (f : β → β) (h : m.has key = false) : m.update key f = m := by
  have hnone : m.value? key = none := by simpa [has] using h
  refine OrderedMap.ext rfl ?_
  change Function.update m.value? key ((m.value? key).map f) = m.value?
  rw [hnone, Option.map_none, ← hnone, Function.update_eq_self]

/-! ## Lists as maps -/

variable {nameOf : α → String} {xs : List α} {name : String}

/-- The map of a list from the names of its elements to the elements. -/
def ofList (nameOf : α → String) (xs : List α) (h : (xs.map nameOf).Nodup) : OrderedMap α where
  keys := xs.map nameOf
  value? := (Named.find? nameOf · xs)
  nodup := h
  mem_keys_iff := fun _ => by rw [Ne, Named.find?_eq_none_iff, not_not]

section

variable (hxs : (xs.map nameOf).Nodup)

theorem has_ofList_iff : (ofList nameOf xs hxs).has name = true ↔ name ∈ xs.map nameOf := by
  rw [has, Option.isSome_iff_ne_none]
  exact ((ofList nameOf xs hxs).mem_keys_iff name).symm

theorem ofList_put (x : α) (h : ((Named.put nameOf x xs).map nameOf).Nodup) :
    ofList nameOf (Named.put nameOf x xs) h = (ofList nameOf xs hxs).put (nameOf x) x :=
  OrderedMap.ext (Named.map_put nameOf x xs) (Named.find?_put x xs)

/-- An element is removed from the list exactly if the map has its key. -/
theorem ofList_remove? (name : String) :
    (Named.remove? nameOf name xs = none ∧ (ofList nameOf xs hxs).has name = false) ∨
      ∃ ys hys, Named.remove? nameOf name xs = some ys ∧
        (ofList nameOf xs hxs).has name = true ∧
          ofList nameOf ys hys = (ofList nameOf xs hxs).remove name := by
  cases hremove : Named.remove? nameOf name xs with
  | none =>
      refine Or.inl ⟨rfl, ?_⟩
      rw [Bool.eq_false_iff, Ne, has_ofList_iff]
      exact Named.remove?_eq_none_iff.1 hremove
  | some ys =>
      have hys : (ys.map nameOf).Nodup := hxs.sublist ((Named.sublist_of_remove? hremove).map _)
      refine Or.inr ⟨ys, hys, rfl, ?_, ?_⟩
      · rw [has_ofList_iff]
        by_contra habsent
        rw [Named.remove?_eq_none_iff.2 habsent] at hremove
        cases hremove
      · exact OrderedMap.ext (Named.map_of_remove? hremove) (Named.find?_remove? hxs hremove)

/-- An element is changed in the list exactly if the map has its key. -/
theorem ofList_update? (name : String) {f : α → α} (hf : ∀ z, nameOf (f z) = nameOf z) :
    (Named.update? nameOf name f xs = none ∧ (ofList nameOf xs hxs).has name = false) ∨
      ∃ ys hys, Named.update? nameOf name f xs = some ys ∧
        (ofList nameOf xs hxs).has name = true ∧
          ofList nameOf ys hys = (ofList nameOf xs hxs).update name f := by
  cases hupdate : Named.update? nameOf name f xs with
  | none =>
      refine Or.inl ⟨rfl, ?_⟩
      rw [Bool.eq_false_iff, Ne, has_ofList_iff]
      exact Named.update?_eq_none_iff.1 hupdate
  | some ys =>
      have hnames := Named.map_of_update? hf hupdate
      refine Or.inr ⟨ys, hnames ▸ hxs, rfl, ?_, ?_⟩
      · rw [has_ofList_iff]
        by_contra habsent
        rw [Named.update?_eq_none_iff.2 habsent] at hupdate
        cases hupdate
      · exact OrderedMap.ext hnames (Named.find?_update? hf hupdate)

end

end OrderedMap

end Arranger
