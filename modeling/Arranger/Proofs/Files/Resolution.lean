import Arranger.Proofs.Files.Growth

/-!
# Where paths lead

Wherever following a path ends, it is where its parts lead from its base, whatever lies on the way:
two points lead up, and any other part leads down.  Parts that never lead above the place where they
begin end below it.
-/

namespace Arranger

namespace Place

/-- The place that one part leads to. -/
def follow (here : Place) (part : String) : Place :=
  if part = ".." then here.dropLast else here ++ [part]

def resolve (base : Place) (parts : List String) : Place := parts.foldl follow base

/-- A place inside a directory, at any depth. -/
def IsBelow (directory place : Place) : Prop := directory <+: place ∧ place ≠ directory

instance (directory place : Place) : Decidable (IsBelow directory place) := by
  unfold IsBelow
  infer_instance

/-- Whether parts that begin `depth` parts below a place never lead above it. -/
def staysBelow : Nat → List String → Bool
  | _, [] => true
  | depth, part :: rest =>
      if part = ".." then 0 < depth && staysBelow (depth - 1) rest else staysBelow (depth + 1) rest

variable {base : Place} {front parts : List String} {part : String}

theorem resolve_append (base : Place) (front rest : List String) :
    resolve base (front ++ rest) = resolve (resolve base front) rest :=
  List.foldl_append

theorem resolve_concat (hpart : part ≠ "..") (base : Place) (front : List String) :
    resolve base (front ++ [part]) = resolve base front ++ [part] := by
  rw [resolve_append]
  exact if_neg hpart

theorem isBelow_concat (base : Place) (part : String) : IsBelow base (base ++ [part]) :=
  ⟨List.prefix_append _ _, by simp⟩

theorem staysBelow_of_append
    {depth : Nat} {rest : List String} (h : staysBelow depth (front ++ rest)) :
    staysBelow depth front := by
  induction front generalizing depth with
  | nil => rfl
  | cons part front ih =>
      rw [List.cons_append, staysBelow] at h
      rw [staysBelow]
      split at h
      · next hup =>
        rw [if_pos hup]
        rw [Bool.and_eq_true] at h ⊢
        exact ⟨h.1, ih h.2⟩
      · next hdown =>
        rw [if_neg hdown]
        exact ih h

/-- The induction is on the parts; `inner` is the way down that they have led from the base so
far. -/
theorem prefix_resolve_of_staysBelow
    {inner : List String} (h : staysBelow inner.length parts) :
    base <+: resolve (base ++ inner) parts := by
  induction parts generalizing inner with
  | nil => exact List.prefix_append base inner
  | cons part rest ih =>
      rw [staysBelow] at h
      change base <+: resolve (follow (base ++ inner) part) rest
      unfold follow
      split at h
      · next hup =>
        rw [Bool.and_eq_true, decide_eq_true_eq] at h
        have hinner : inner ≠ [] := List.ne_nil_of_length_pos h.1
        rw [if_pos hup, List.dropLast_append_of_ne_nil hinner]
        apply ih
        rw [List.length_dropLast]
        exact h.2
      · next hdown =>
        rw [if_neg hdown, List.append_assoc]
        apply ih
        rw [List.length_append]
        exact h

/-- What stays below a place and ends with a name lies inside it. -/
theorem isBelow_resolve_concat
    (hpart : part ≠ "..") (h : staysBelow 0 (front ++ [part])) :
    IsBelow base (resolve base (front ++ [part])) := by
  have hfront : staysBelow ([] : List String).length front := staysBelow_of_append h
  have hinner : base <+: resolve (base ++ []) front := prefix_resolve_of_staysBelow hfront
  rw [List.append_nil] at hinner
  rw [resolve_concat hpart]
  refine ⟨hinner.trans (List.prefix_append _ _), ?_⟩
  intro heq
  have hle := hinner.length_le
  have hlength := congrArg List.length heq
  rw [List.length_append, List.length_singleton] at hlength
  omega

end Place

/-! ## Paths -/

namespace Path

/-- The place that a path leads to if there is a way. -/
def resolve (p : Path) : Place := Place.resolve p.base p.parts

/-- Whether a relative path never leads above the directory that it is joined to. -/
def staysInside (text : String) : Bool :=
  text.toList.head? != some '/' && Place.staysBelow 0 (partsOf text)

theorem resolve_join_of_relative
    {text : String} (htext : text.toList.head? ≠ some '/') (p : Path) :
    (p.join text).resolve = Place.resolve p.resolve (partsOf text) := by
  rw [join, if_neg htext]
  exact Place.resolve_append _ _ _

end Path

/-! ## Trees -/

namespace FileTree

variable {t u : FileTree} {p : Path} {here place : Place}

theorem eq_resolve_of_walk
    {parts : List String} (h : t.walk here parts = .ok place) :
    place = Place.resolve here parts := by
  induction parts generalizing here with
  | nil => exact (Except.ok.inj h).symm
  | cons part rest ih =>
      rw [walk] at h
      change place = Place.resolve (Place.follow here part) rest
      unfold Place.follow
      split at h
      · simp at h
      · simp at h
      · split at h
        · next hup =>
          rw [if_pos hup]
          exact ih h
        · next hdown =>
          rw [if_neg hdown]
          split at h
          · simp at h
          · exact ih h

theorem eq_resolve_of_locate (h : t.locate p = .ok place) : place = p.resolve :=
  eq_resolve_of_walk (locate_eq_walk h).2

theorem sameFilesBut_resolve_of_write
    {content : Content} {stamp : Nat} (h : t.write p content stamp = .ok u) :
    SameFilesBut p.resolve t u := by
  obtain ⟨target, hlocate, -, hothers⟩ := sameFilesBut_of_write h
  rwa [← eq_resolve_of_locate hlocate]

theorem sameFilesBut_resolve_of_remove
    (h : t.remove p = .ok u) : SameFilesBut p.resolve t u := by
  obtain ⟨target, content, stamp, hlocate, -, rfl⟩ := remove_inv h
  rw [← eq_resolve_of_locate hlocate]
  intro other hother
  rw [file?, file?, at?_erase_of_ne t hother.symm]

/-- The only files that differ lie inside a directory. -/
def ChangesBelow (directory : Place) (t u : FileTree) : Prop :=
  ∀ place, u.file? place ≠ t.file? place → Place.IsBelow directory place

theorem SameFiles.changesBelow (h : t.SameFiles u) (directory : Place) :
    ChangesBelow directory t u :=
  fun place hchanged => absurd (h place) hchanged

theorem SameFilesBut.changesBelow
    {directory target : Place} (h : SameFilesBut target t u)
    (htarget : Place.IsBelow directory target) : ChangesBelow directory t u := by
  intro place hchanged
  have heq : place = target := by
    by_contra hother
    exact hchanged (h place hother)
  rwa [heq]

end FileTree

end Arranger
