/-!
# Delimited texts

A text is read back from left to right if every piece of it ends where a character stands that no
piece of its kind holds.  Each lemma here takes two texts that agree, splits off what two lists of
pieces contribute to them, and leaves the two remainders equal.
-/

namespace Arranger.Text

/-- Runs of characters of a class agree if the texts that they begin agree, and a character
outside the class stands behind each of them. -/
theorem run_append_inj
    {p : Char → Prop} {u v r s : List Char} {c d : Char}
    (hu : ∀ x ∈ u, p x) (hv : ∀ x ∈ v, p x) (hc : ¬ p c) (hd : ¬ p d)
    (h : u ++ c :: r = v ++ d :: s) :
    u = v ∧ c = d ∧ r = s := by
  induction u generalizing v with
  | nil =>
      cases v with
      | nil => simpa using h
      | cons y v =>
          simp only [List.nil_append, List.cons_append, List.cons.injEq] at h
          have hy : p y := hv y (by simp)
          exact absurd (h.1 ▸ hy) hc
  | cons x u ih =>
      have hx : p x := hu x (by simp)
      cases v with
      | nil =>
          simp only [List.nil_append, List.cons_append, List.cons.injEq] at h
          exact absurd (h.1 ▸ hx) hd
      | cons y v =>
          simp only [List.cons_append, List.cons.injEq] at h
          obtain ⟨rfl, htail⟩ := h
          obtain ⟨rfl, hcd, hrs⟩ :=
            ih (fun z hz => hu z (by simp [hz])) (fun z hz => hv z (by simp [hz])) htail
          exact ⟨rfl, hcd, hrs⟩

/-- Lists of pieces agree as far as one piece can be told from its text, if no piece begins with
the character that stands behind the last one. -/
theorem flatMap_append_inj
    {α κ : Type} {write : α → List Char} {f : α → κ} {stop : Char} {P : α → Prop}
    (hhead : ∀ x, P x → ∃ c rest, write x = c :: rest ∧ c ≠ stop)
    (hpiece : ∀ x y r s, P x → P y → write x ++ r = write y ++ s → f x = f y ∧ r = s)
    {xs ys : List α} {r s : List Char}
    (hxs : ∀ x ∈ xs, P x) (hys : ∀ y ∈ ys, P y)
    (h : xs.flatMap write ++ stop :: r = ys.flatMap write ++ stop :: s) :
    xs.map f = ys.map f ∧ r = s := by
  induction xs generalizing ys with
  | nil =>
      cases ys with
      | nil => simpa using h
      | cons y ys =>
          obtain ⟨c, rest, hwrite, hne⟩ := hhead y (hys y (by simp))
          simp only [List.flatMap_nil, List.nil_append, List.flatMap_cons, hwrite,
            List.cons_append, List.cons.injEq] at h
          exact absurd h.1.symm hne
  | cons x xs ih =>
      have hx := hxs x (by simp)
      cases ys with
      | nil =>
          obtain ⟨c, rest, hwrite, hne⟩ := hhead x hx
          simp only [List.flatMap_nil, List.nil_append, List.flatMap_cons, hwrite,
            List.cons_append, List.cons.injEq] at h
          exact absurd h.1 hne
      | cons y ys =>
          have hy := hys y (by simp)
          simp only [List.flatMap_cons, List.append_assoc] at h
          obtain ⟨hkey, htail⟩ := hpiece x y _ _ hx hy h
          obtain ⟨hkeys, hrs⟩ :=
            ih (fun z hz => hxs z (by simp [hz])) (fun z hz => hys z (by simp [hz])) htail
          exact ⟨by simp [hkey, hkeys], hrs⟩

theorem mem_of_mem_intercalate
    {sep : List Char} {us : List (List Char)} {c : Char} (h : c ∈ sep.intercalate us) :
    c ∈ sep ∨ ∃ u ∈ us, c ∈ u := by
  induction us with
  | nil => simp at h
  | cons u us ih =>
      cases us with
      | nil =>
          right
          exact ⟨u, by simp, by simpa using h⟩
      | cons v us =>
          simp only [List.intercalate_cons_cons, List.mem_append] at h
          rcases h with (hu | hsep) | hrest
          · exact .inr ⟨u, by simp, hu⟩
          · exact .inl hsep
          · rcases ih hrest with hsep | ⟨w, hw, hc⟩
            · exact .inl hsep
            · exact .inr ⟨w, by simp [hw], hc⟩

/-- A word of a class: at least one character, and no other than those of the class. -/
def IsWordOf (p : Char → Prop) (u : List Char) : Prop := u ≠ [] ∧ ∀ c ∈ u, p c

section Words

variable {p : Char → Prop} {sep stop : Char} {gap u r s : List Char} {us vs : List (List Char)}

theorem IsWordOf.ne_append (hu : IsWordOf p u) (hstop : ¬ p stop) (r s : List Char) :
    stop :: r ≠ u ++ s := by
  obtain ⟨c, w, rfl⟩ := List.exists_cons_of_ne_nil hu.1
  intro heq
  have hc : stop = c := (List.cons.inj heq).1
  exact hstop (hc ▸ hu.2 c (by simp))

/-- Behind the first of the words stands the stop, or a separator with the other words. -/
theorem intercalate_cons_append (sep stop : Char) (gap u : List Char) (us : List (List Char))
    (r : List Char) :
    (us = [] ∧ (sep :: gap).intercalate (u :: us) ++ stop :: r = u ++ stop :: r) ∨
      (us ≠ [] ∧ (sep :: gap).intercalate (u :: us) ++ stop :: r =
        u ++ sep :: (gap ++ ((sep :: gap).intercalate us ++ stop :: r))) := by
  cases us with
  | nil => exact .inl ⟨rfl, by simp⟩
  | cons v us => exact .inr ⟨by simp, by simp [List.intercalate_cons_cons]⟩

theorem IsWordOf.ne_intercalate (hu : IsWordOf p u) (hstop : ¬ p stop) (r s : List Char) :
    stop :: r ≠ (sep :: gap).intercalate (u :: us) ++ stop :: s := by
  rcases intercalate_cons_append sep stop gap u us s with ⟨-, heq⟩ | ⟨-, heq⟩
  · rw [heq]
    exact hu.ne_append hstop r _
  · rw [heq]
    exact hu.ne_append hstop r _

/-- Lists of words between separators agree if the texts that they begin agree. -/
theorem intercalate_append_inj
    (hsep : ¬ p sep) (hstop : ¬ p stop) (hne : sep ≠ stop)
    (hus : ∀ u ∈ us, IsWordOf p u) (hvs : ∀ v ∈ vs, IsWordOf p v)
    (h : (sep :: gap).intercalate us ++ stop :: r = (sep :: gap).intercalate vs ++ stop :: s) :
    us = vs ∧ r = s := by
  induction us generalizing vs with
  | nil =>
      cases vs with
      | nil => simpa using h
      | cons v vs =>
          rw [List.intercalate_nil, List.nil_append] at h
          exact absurd h ((hvs v (by simp)).ne_intercalate hstop r s)
  | cons u us ih =>
      have hu := hus u (by simp)
      cases vs with
      | nil =>
          rw [List.intercalate_nil, List.nil_append] at h
          exact absurd h.symm (hu.ne_intercalate hstop s r)
      | cons v vs =>
          have hv := hvs v (by simp)
          -- what stands behind the first words tells whether there are more of them
          rcases intercalate_cons_append sep stop gap u us r with ⟨rfl, hleft⟩ | ⟨-, hleft⟩
          · rw [hleft] at h
            rcases intercalate_cons_append sep stop gap v vs s with ⟨rfl, hright⟩ | ⟨-, hright⟩
            · rw [hright] at h
              obtain ⟨rfl, -, hrs⟩ := run_append_inj hu.2 hv.2 hstop hstop h
              exact ⟨rfl, hrs⟩
            · rw [hright] at h
              exact absurd (run_append_inj hu.2 hv.2 hstop hsep h).2.1.symm hne
          · rw [hleft] at h
            rcases intercalate_cons_append sep stop gap v vs s with ⟨rfl, hright⟩ | ⟨-, hright⟩
            · rw [hright] at h
              exact absurd (run_append_inj hu.2 hv.2 hsep hstop h).2.1 hne
            · rw [hright] at h
              obtain ⟨rfl, -, htail⟩ := run_append_inj hu.2 hv.2 hsep hsep h
              obtain ⟨rfl, hrs⟩ := ih (fun w hw => hus w (by simp [hw]))
                (fun w hw => hvs w (by simp [hw])) (List.append_cancel_left htail)
              exact ⟨rfl, hrs⟩

end Words

end Arranger.Text
