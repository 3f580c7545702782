import Arranger.Proofs.Results
import Arranger.Proofs.Yaml.Layout
import Mathlib.Data.List.Perm.Subperm
import Mathlib.Data.List.TakeWhile

/-!
# Building values

The values of cells are built from what the cells mean.  Every collection that was met is filled or
still to be filled, a collection is met once, and what it is filled with are the values of its
parts.  So all collections are filled before the fuel is spent, and put in place they are the values
that the cells mean.
-/

namespace Arranger.Yaml

open Building

/-! ## Successful runs -/

/-- A run that succeeds, with what is known of its result and of the builder that it leaves. -/
def Building.Yields {α : Type} (x : Building α) (b : Builder) (P : α → Builder → Prop) : Prop :=
  ∃ a after, x.run b = .ok (a, after) ∧ P a after

section Yields

variable {α β : Type} {b : Builder} {P : α → Builder → Prop}

theorem Building.Yields.bind {x : Building α} {f : α → Building β} {R : β → Builder → Prop}
    (h : x.Yields b P) (hf : ∀ a after, P a after → (f a).Yields after R) :
    (x >>= f).Yields b R := by
  obtain ⟨a, after, hrun, hP⟩ := h
  obtain ⟨r, last, hlast, hR⟩ := hf a after hP
  refine ⟨r, last, ?_, hR⟩
  rw [StateT.run_bind, hrun]
  exact hlast

theorem yields_pure {a : α} (h : P a b) : (pure a : Building α).Yields b P := ⟨a, b, rfl, h⟩

theorem run_bind_of_run {x : Building α} {a : α} {after : Builder} (h : x.run b = .ok (a, after))
    (f : α → Building β) : (x >>= f).run b = (f a).run after := by
  rw [StateT.run_bind, h]
  rfl

end Yields

/-! ## Sound builders -/

/-- What a collection is filled with are the values of the parts of its cell. -/
inductive Builder.Fills (b : Builder) : Cell → Datum → Prop
  | list {tag : Tag} {items : List Nat} {place : Mark} {found : List Datum}
      (hitems : List.Forall₂ (fun i v => (i, v) ∈ b.values) items found) :
      Fills b (.sequence tag items place) (.list found)
  | map {tag : Tag} {entries : List (Nat × Nat)} {place : Mark} {found : List (Datum × Datum)}
      (hentries : List.Forall₂ (fun (e : Nat × Nat) (f : Datum × Datum) =>
        (e.1, f.1) ∈ b.values ∧ (e.2, f.2) ∈ b.values) entries found) :
      Fills b (.mapping tag entries place) (.map found)

/-- A builder of the values of given cells, in which the collections `busy` are being filled. -/
structure Builder.IsSound (cells : List Cell) (values : List Datum) (busy : List (Nat × Nat))
    (b : Builder) : Prop where
  areRead : AreRead cells values
  cells_eq : b.cells = cells
  nodup : (b.values.map (·.1)).Nodup
  means : ∀ {p v}, (p, v) ∈ b.values → ∃ c d, cells[p]? = some c ∧ values[p]? = some d ∧
    if c.tag.isCollection then ∃ k < b.collections.length, v = .looped [] k else v = d
  number_inj : ∀ {p q k}, (p, .looped [] k) ∈ b.values → (q, .looped [] k) ∈ b.values → p = q
  pending : ∀ {k p}, (k, p) ∈ busy ++ b.pending → (p, .looped [] k) ∈ b.values
  filled : ∀ {k p c}, (p, .looped [] k) ∈ b.values → cells[p]? = some c →
    (k, p) ∈ busy ++ b.pending ∨ b.Fills c (b.collections.getD k .null)

/-- How many collections may still be filled. -/
def Builder.work (b : Builder) : Nat := b.cells.length - b.values.length + b.pending.length

/-- What a builder becomes as values are added to it. -/
structure Builder.Grows (b after : Builder) : Prop where
  values : ∀ {entry}, entry ∈ b.values → entry ∈ after.values
  work_le : after.work ≤ b.work

theorem Builder.Grows.refl (b : Builder) : b.Grows b := ⟨id, Nat.le_refl _⟩

theorem Builder.Grows.trans {b mid after : Builder} (h : b.Grows mid) (h' : mid.Grows after) :
    b.Grows after :=
  ⟨fun hentry => h'.values (h.values hentry), Nat.le_trans h'.work_le h.work_le⟩

theorem Builder.Fills.of_values {b after : Builder} {c : Cell} {d : Datum} (h : b.Fills c d)
    (hvalues : ∀ {entry}, entry ∈ b.values → entry ∈ after.values) : after.Fills c d := by
  cases h with
  | list hitems => exact .list (hitems.imp fun _ _ => hvalues)
  | map hentries => exact .map (hentries.imp fun _ _ h => ⟨hvalues h.1, hvalues h.2⟩)

variable {cells : List Cell} {values : List Datum} {busy : List (Nat × Nat)} {b : Builder}
  {p : Nat} {c : Cell} {d v : Datum}

namespace Builder.IsSound

theorem run_cellAt (h : b.IsSound cells values busy) (hcell : cells[p]? = some c) :
    (cellAt p).run b = .ok (c, b) := by
  have hget : b.cells.getD p default = c := by
    rw [h.cells_eq, List.getD_eq_getElem?_getD, hcell]
    rfl
  exact congrArg (fun c => Except.ok (c, b)) hget

/-- No more values are made than there are cells. -/
theorem length_values_le (h : b.IsSound cells values busy) :
    b.values.length ≤ b.cells.length := by
  have hsubset : b.values.map (·.1) ⊆ List.range b.cells.length := by
    intro p hp
    obtain ⟨⟨q, v⟩, hmem, rfl⟩ := List.mem_map.1 hp
    obtain ⟨c, d, hcell, -, -⟩ := h.means hmem
    rw [h.cells_eq]
    exact List.mem_range.2 (List.getElem?_eq_some_iff.1 hcell).1
  simpa using (List.subperm_of_subset h.nodup hsubset).length_le

theorem not_mem_keys (h : b.values.lookup p = none) : p ∉ b.values.map (·.1) := by
  rintro hp
  obtain ⟨entry, hentry, rfl⟩ := List.mem_map.1 hp
  exact absurd (List.lookup_eq_none_iff.1 h entry hentry) (by simp)

theorem of_looped {k : Nat} (h : b.IsSound cells values busy)
    (hmem : (p, .looped [] k) ∈ b.values) :
    ∃ c, cells[p]? = some c ∧ c.tag.isCollection = true ∧ k < b.collections.length := by
  obtain ⟨c, d, hcell, hd, hmeans⟩ := h.means hmem
  split at hmeans
  · next htag =>
    obtain ⟨n, hn, heq⟩ := hmeans
    exact ⟨c, hcell, htag, by rwa [(Datum.looped.inj heq).2]⟩
  · obtain ⟨e, he, hmean⟩ := h.areRead.means hcell
    obtain rfl := Option.some.inj (hd.symm.trans he)
    rw [← hmeans] at hmean
    exact absurd hmean.isCollection (by simp [isCollection])

/-- The value of a scalar is kept. -/
theorem addScalar (h : b.IsSound cells values busy) (hnew : b.values.lookup p = none)
    (hcell : cells[p]? = some c) (hd : values[p]? = some d) (htag : c.tag.isCollection = false)
    (hplain : isCollection d = false) :
    Builder.IsSound cells values busy { b with values := (p, d) :: b.values } ∧
      b.Grows { b with values := (p, d) :: b.values } := by
  have hnumber : ∀ {q k}, (q, .looped [] k) ∈ (p, d) :: b.values → (q, .looped [] k) ∈ b.values := by
    intro q k hmem
    rcases List.mem_cons.1 hmem with heq | hmem
    · obtain ⟨-, rfl⟩ := Prod.mk.inj heq
      exact absurd hplain (by simp [isCollection])
    · exact hmem
  refine ⟨⟨h.areRead, h.cells_eq, List.nodup_cons.2 ⟨not_mem_keys hnew, h.nodup⟩, ?_, ?_, ?_, ?_⟩,
    List.mem_cons_of_mem _, ?_⟩
  · intro q v hmem
    rcases List.mem_cons.1 hmem with heq | hmem
    · obtain ⟨rfl, rfl⟩ := Prod.mk.inj heq
      exact ⟨c, v, hcell, hd, by simp [htag]⟩
    · exact h.means hmem
  · exact fun hp hq => h.number_inj (hnumber hp) (hnumber hq)
  · exact fun hmem => List.mem_cons_of_mem _ (h.pending hmem)
  · intro k q c hmem hcell
    rcases h.filled (hnumber hmem) hcell with hpending | hfilled
    · exact .inl hpending
    · exact .inr (hfilled.of_values (List.mem_cons_of_mem _))
  · simp only [Builder.work, List.length_cons]
    omega

/-- A collection is met: it gets the next number and is to be filled. -/
theorem addCollection (h : b.IsSound cells values busy) (hnew : b.values.lookup p = none)
    (hcell : cells[p]? = some c) (hd : values[p]? = some d) (htag : c.tag.isCollection = true) :
    let after : Builder := ⟨b.cells, (p, .looped [] b.collections.length) :: b.values,
      b.collections ++ [.null], b.pending ++ [(b.collections.length, p)]⟩
    after.IsSound cells values busy ∧ b.Grows after := by
  intro after
  have hlength : after.collections.length = b.collections.length + 1 := by simp [after]
  have hpending : ∀ {entry}, entry ∈ busy ++ after.pending ↔
      entry ∈ busy ++ b.pending ∨ entry = (b.collections.length, p) := by
    intro entry
    simp only [after, List.mem_append, List.mem_singleton, or_assoc]
  have hnumber : ∀ {q k}, (q, .looped [] k) ∈ after.values →
      (q = p ∧ k = b.collections.length) ∨
        ((q, .looped [] k) ∈ b.values ∧ k < b.collections.length) := by
    intro q k hmem
    rcases List.mem_cons.1 hmem with heq | hmem
    · obtain ⟨rfl, hk⟩ := Prod.mk.inj heq
      exact .inl ⟨rfl, (Datum.looped.inj hk).2⟩
    · obtain ⟨-, -, -, hk⟩ := h.of_looped hmem
      exact .inr ⟨hmem, hk⟩
  have hsound : after.IsSound cells values busy := by
    refine ⟨h.areRead, h.cells_eq, List.nodup_cons.2 ⟨not_mem_keys hnew, h.nodup⟩, ?_, ?_, ?_, ?_⟩
    · intro q v hmem
      rcases List.mem_cons.1 hmem with heq | hmem
      · obtain ⟨rfl, rfl⟩ := Prod.mk.inj heq
        refine ⟨c, d, hcell, hd, ?_⟩
        rw [if_pos htag, hlength]
        exact ⟨_, Nat.lt_succ_self _, rfl⟩
      · obtain ⟨e, f, he, hf, hmeans⟩ := h.means hmem
        refine ⟨e, f, he, hf, ?_⟩
        split at hmeans
        · next he =>
          obtain ⟨k, hk, rfl⟩ := hmeans
          rw [if_pos he, hlength]
          exact ⟨k, Nat.lt_succ_of_lt hk, rfl⟩
        · next he =>
          rwa [if_neg he]
    · intro q r k hq hr
      rcases hnumber hq with ⟨rfl, rfl⟩ | ⟨hq, hk⟩
      · rcases hnumber hr with ⟨rfl, -⟩ | ⟨-, hk⟩
        · rfl
        · exact absurd hk (Nat.lt_irrefl _)
      · rcases hnumber hr with ⟨-, rfl⟩ | ⟨hr, -⟩
        · exact absurd hk (Nat.lt_irrefl _)
        · exact h.number_inj hq hr
    · intro k q hmem
      rcases hpending.1 hmem with hmem | heq
      · exact List.mem_cons_of_mem _ (h.pending hmem)
      · obtain ⟨rfl, rfl⟩ := Prod.mk.inj heq
        exact List.mem_cons_self
    · intro k q e hmem he
      rcases hnumber hmem with ⟨rfl, rfl⟩ | ⟨hmem, hk⟩
      · exact .inl (hpending.2 (.inr rfl))
      · rcases h.filled hmem he with hbusy | hfilled
        · exact .inl (hpending.2 (.inl hbusy))
        · refine .inr ?_
          have hkept : after.collections.getD k .null = b.collections.getD k .null := by
            simp [after, List.getD_eq_getElem?_getD, List.getElem?_append_left hk]
          rw [hkept]
          exact hfilled.of_values (List.mem_cons_of_mem _)
  refine ⟨hsound, List.mem_cons_of_mem _, ?_⟩
  have hroom : after.values.length ≤ after.cells.length := hsound.length_values_le
  simp only [Builder.work, after, List.length_cons, List.length_append, List.length_nil] at hroom ⊢
  omega

/-! ## Values of nodes -/

theorem run_textOf {tag : Tag} {text : ScalarText} {place : Mark}
    (h : b.IsSound cells values busy) (hcell : cells[p]? = some (.scalar tag text place)) :
    (textOf b.cells.length p).run b = .ok (text, b) := by
  obtain ⟨hp, -⟩ := List.getElem?_eq_some_iff.1 hcell
  obtain ⟨fuel, hfuel⟩ : ∃ fuel, b.cells.length = fuel + 1 :=
    ⟨b.cells.length - 1, by rw [h.cells_eq]; omega⟩
  rw [hfuel, textOf, run_bind_of_run (h.run_cellAt hcell)]
  rfl

theorem run_scalarValue {tag : Tag} {text : ScalarText} {place : Mark}
    {read : Label → Except Error Datum} (h : b.IsSound cells values busy)
    (hcell : cells[p]? = some (.scalar tag text place))
    (hreader : reader? (.scalar tag text place) = some read) (hread : read text.value = .ok d) :
    (scalarValue p).run b = .ok (d, b) := by
  rw [scalarValue, run_bind_of_run (h.run_cellAt hcell), hreader]
  change StateT.run (textOf b.cells.length p >>= fun text => liftM (read text.value)) b = _
  rw [run_bind_of_run (h.run_textOf hcell), hread]
  rfl

/-- The value of a node is made, or it has been made before. -/
theorem yields_valueAt (h : b.IsSound cells values busy) (hp : p < cells.length) :
    (valueAt p).Yields b fun v after =>
      (p, v) ∈ after.values ∧ after.IsSound cells values busy ∧ b.Grows after := by
  have hcell : cells[p]? = some cells[p] := List.getElem?_eq_getElem hp
  obtain ⟨d, hd, hmeans⟩ := h.areRead.means hcell
  have hget : (get : Building Builder).run b = .ok (b, b) := rfl
  rw [valueAt]
  cases hlookup : b.values.lookup p with
  | some v =>
      obtain ⟨front, back, hvalues, -⟩ := List.lookup_eq_some_iff.1 hlookup
      refine ⟨v, b, ?_, by simp [hvalues], h, .refl b⟩
      rw [run_bind_of_run hget, hlookup]
      rfl
  | none =>
      cases htag : cells[p].tag.isCollection with
      | true =>
          obtain ⟨hsound, hgrows⟩ := h.addCollection hlookup hcell hd htag
          refine ⟨_, _, ?_, List.mem_cons_self, hsound, hgrows⟩
          rw [run_bind_of_run hget, hlookup]
          change StateT.run (cellAt p >>= _) b = _
          rw [run_bind_of_run (h.run_cellAt hcell), if_pos htag]
          rfl
      | false =>
          obtain ⟨hsound, hgrows⟩ := h.addScalar hlookup hcell hd htag hmeans.isCollection
          obtain ⟨tag, text, place, read, hscalar, hreader, hread⟩ := hmeans.exists_scalar htag
          have hvalue := h.run_scalarValue (hscalar ▸ hcell) hreader hread
          refine ⟨d, _, ?_, List.mem_cons_self, hsound, hgrows⟩
          rw [run_bind_of_run hget, hlookup]
          change StateT.run (cellAt p >>= _) b = _
          rw [run_bind_of_run (h.run_cellAt hcell), if_neg (by simp [htag]), run_bind_of_run hvalue]
          rfl

/-! ## Parts of collections -/

theorem yields_items (items : List Nat) (h : b.IsSound cells values busy)
    (hitems : ∀ i ∈ items, i < cells.length) :
    (items.mapM valueAt).Yields b fun found after =>
      List.Forall₂ (fun i v => (i, v) ∈ after.values) items found ∧
        after.IsSound cells values busy ∧ b.Grows after := by
  induction items generalizing b with
  | nil => exact ⟨[], b, rfl, .nil, h, .refl b⟩
  | cons i rest ih =>
      rw [List.mapM_cons]
      refine (h.yields_valueAt (hitems i List.mem_cons_self)).bind ?_
      rintro v mid ⟨hv, hmid, hgrows⟩
      refine (ih hmid fun j hj => hitems j (List.mem_cons_of_mem i hj)).bind ?_
      rintro found after ⟨hfound, hafter, hmore⟩
      exact yields_pure ⟨.cons (hmore.values hv) hfound, hafter, hgrows.trans hmore⟩

theorem eq_text {name : String} (h : b.IsSound cells values busy) (hv : (p, v) ∈ b.values)
    (hd : values[p]? = some (.text name)) : v = .text name := by
  obtain ⟨c, e, hcell, he, hv⟩ := h.means hv
  obtain ⟨f, hf, hmeans⟩ := h.areRead.means hcell
  obtain rfl := Option.some.inj (hd.symm.trans hf)
  obtain rfl := Option.some.inj (hd.symm.trans he)
  rwa [if_neg (by simp [hmeans.tag_of_text])] at hv

theorem enter_of_new {key : Datum} {found : List (Nat × Datum × Datum)}
    (h : ∀ f ∈ found, f.1 ≠ p ∧ f.2.1.sameKey key = false) (value : Datum) :
    enter p key value found = found ++ [(p, key, value)] := by
  induction found with
  | nil => rfl
  | cons first rest ih =>
      obtain ⟨other, k, w⟩ := first
      obtain ⟨hne, hkey⟩ := h _ List.mem_cons_self
      rw [enter, if_neg (by simp [hne, hkey]), ih fun f hf => h f (List.mem_cons_of_mem _ hf)]
      rfl

/-- The values of entries are found under distinct texts as keys. -/
def HasFound (values : List Datum) (b : Builder) (entries : List (Nat × Nat)) (names : List String)
    (found : List (Nat × Datum × Datum)) : Prop :=
  List.Forall₂ (fun (e : Nat × Nat) (f : Nat × Datum × Datum) =>
    (e.1, f.2.1) ∈ b.values ∧ (e.2, f.2.2) ∈ b.values) entries found ∧
  ∀ f ∈ found, ∃ name ∈ names, values[f.1]? = some (.text name) ∧ f.2.1 = .text name

theorem yields_withEntry {e : Nat × Nat} {name : String} {entries : List (Nat × Nat)}
    {names : List String} {found : List (Nat × Datum × Datum)} (place : Mark)
    (h : b.IsSound cells values busy) (hfound : HasFound values b entries names found)
    (hkey : values[e.1]? = some (.text name)) (hnew : name ∉ names) (hvalue : e.2 < cells.length) :
    (withEntry place found e).Yields b fun found after =>
      HasFound values after (entries ++ [e]) (names ++ [name]) found ∧
        after.IsSound cells values busy ∧ b.Grows after := by
  have hbound : e.1 < cells.length := by
    rw [h.areRead.length_eq]
    exact (List.getElem?_eq_some_iff.1 hkey).1
  refine (h.yields_valueAt hbound).bind ?_
  rintro key mid ⟨hkeyMem, hmid, hgrows⟩
  obtain rfl := hmid.eq_text hkeyMem hkey
  rw [if_neg (by simp [isCollection])]
  refine (hmid.yields_valueAt hvalue).bind ?_
  rintro value after ⟨hvalueMem, hafter, hmore⟩
  have hdistinct : ∀ f ∈ found, f.1 ≠ e.1 ∧ f.2.1.sameKey (.text name) = false := by
    intro f hf
    obtain ⟨other, hother, hvalue, htext⟩ := hfound.2 f hf
    have hne : other ≠ name := by
      rintro rfl
      exact hnew hother
    refine ⟨?_, by simpa [htext, Datum.sameKey] using hne⟩
    intro heq
    rw [heq, hkey] at hvalue
    exact hne (Datum.text.inj (Option.some.inj hvalue)).symm
  rw [enter_of_new hdistinct]
  refine yields_pure ⟨⟨?_, ?_⟩, hafter, hgrows.trans hmore⟩
  · refine List.rel_append (hfound.1.imp fun _ _ h => ?_) (.cons ⟨hmore.values hkeyMem, hvalueMem⟩ .nil)
    exact ⟨hmore.values (hgrows.values h.1), hmore.values (hgrows.values h.2)⟩
  · intro f hf
    rcases List.mem_append.1 hf with hf | hf
    · obtain ⟨other, hother, hrest⟩ := hfound.2 f hf
      exact ⟨other, List.mem_append_left _ hother, hrest⟩
    · rw [List.mem_singleton.1 hf]
      exact ⟨name, by simp, hkey, rfl⟩

theorem yields_entries {entries rest : List (Nat × Nat)} {fields : List (String × Datum)}
    {names : List String} {found : List (Nat × Datum × Datum)} (place : Mark)
    (h : b.IsSound cells values busy) (hfound : HasFound values b entries names found)
    (hrest : List.Forall₂ (fun (e : Nat × Nat) (f : String × Datum) =>
      values[e.1]? = some (.text f.1) ∧ values[e.2]? = some f.2) rest fields)
    (hdistinct : (names ++ fields.map (·.1)).Nodup) :
    (rest.foldlM (withEntry place) found).Yields b fun found after =>
      List.Forall₂ (fun (e : Nat × Nat) (f : Nat × Datum × Datum) =>
        (e.1, f.2.1) ∈ after.values ∧ (e.2, f.2.2) ∈ after.values) (entries ++ rest) found ∧
        after.IsSound cells values busy ∧ b.Grows after := by
  induction hrest generalizing b entries names found with
  | nil => exact ⟨found, b, rfl, by simpa using hfound.1, h, .refl b⟩
  | @cons e f rest fields hentry _ ih =>
      obtain ⟨hkey, hvalue⟩ := hentry
      have hbound : e.2 < cells.length := by
        rw [h.areRead.length_eq]
        exact (List.getElem?_eq_some_iff.1 hvalue).1
      have hnew : f.1 ∉ names := by
        intro hmem
        exact (List.nodup_append.1 hdistinct).2.2 _ hmem _ (by simp) rfl
      rw [List.foldlM_cons]
      refine (h.yields_withEntry place hfound hkey hnew hbound).bind ?_
      rintro found mid ⟨hfound, hmid, hgrows⟩
      obtain ⟨last, after, hrun, hlast, hafter, hmore⟩ := ih hmid hfound (by simpa using hdistinct)
      exact ⟨last, after, hrun, by simpa using hlast, hafter, hgrows.trans hmore⟩

/-! ## Nothing to merge -/

theorem settleKey_eq_self (hread : AreRead cells values) (p : Nat) : settleKey cells p = cells := by
  rw [settleKey]
  refine List.ext_getElem? fun i => ?_
  rw [List.getElem?_modify]
  by_cases hi : p = i
  · subst hi
    cases hcell : cells[p]? with
    | none => simp
    | some c =>
        obtain ⟨d, -, hmeans⟩ := hread.means hcell
        simp [hmeans.tag_ne.2]
  · simp [hi]

theorem settleKeys_eq_self (hread : AreRead cells values) (entries : List (Nat × Nat)) :
    entries.foldl (fun cells entry => settleKey cells entry.1) cells = cells := by
  induction entries with
  | nil => rfl
  | cons e rest ih => rw [List.foldl_cons, settleKey_eq_self hread, ih]

theorem run_takeMerged {entries : List (Nat × Nat)} {tag : Tag} {place : Mark}
    (h : b.IsSound cells values busy) (hcell : cells[p]? = some (.mapping tag entries place))
    (hentries : ∀ e ∈ entries, e.1 < cells.length) (fuel : Nat) :
    (takeMerged (fuel + 1) p 0).run b = .ok ([], b) := by
  have hget : (get : Building Builder).run b = .ok (b, b) := rfl
  have hown : ∀ e ∈ entries, ((b.cells.getD e.1 default).tag != .merge) = true := by
    intro e he
    obtain ⟨key, hkey⟩ : ∃ key, cells[e.1]? = some key :=
      ⟨_, List.getElem?_eq_getElem (hentries e he)⟩
    obtain ⟨d, -, hmeans⟩ := h.areRead.means hkey
    rw [h.cells_eq, List.getD_eq_getElem?_getD, hkey]
    exact bne_iff_ne.2 hmeans.tag_ne.1
  have hsettled : entries.foldl (fun cells entry => settleKey cells entry.1) b.cells = b.cells := by
    rw [h.cells_eq]
    exact settleKeys_eq_self h.areRead entries
  rw [takeMerged, run_bind_of_run hget]
  dsimp only
  rw [run_bind_of_run (h.run_cellAt hcell)]
  dsimp only [Cell.entries]
  rw [List.drop_zero, List.takeWhile_eq_self_iff.2 hown, List.dropWhile_eq_nil_iff.2 hown]
  rw [hsettled]
  change Except.ok ([], { b with cells := b.cells }) = _
  rfl

theorem run_flatten {entries : List (Nat × Nat)} {tag : Tag} {place : Mark}
    (h : b.IsSound cells values busy) (hcell : cells[p]? = some (.mapping tag entries place))
    (hentries : ∀ e ∈ entries, e.1 < cells.length) : (flatten p).run b = .ok ((), b) := by
  have hget : (get : Building Builder).run b = .ok (b, b) := rfl
  have hkept : b.cells.modify p (fun c => c.withEntries ([] ++ c.entries)) = b.cells := by
    refine List.ext_getElem? fun i => ?_
    rw [List.getElem?_modify]
    by_cases hi : p = i
    · subst hi
      rw [h.cells_eq, hcell]
      simp [Cell.entries, Cell.withEntries]
    · simp [hi]
  rw [flatten, run_bind_of_run hget, run_bind_of_run (h.run_takeMerged hcell hentries _)]
  change Except.ok ((), { b with
    cells := b.cells.modify p fun c => c.withEntries ([] ++ c.entries) }) = _
  rw [hkept]

/-! ## Filling collections -/

/-- A collection is filled with the values of its parts. -/
theorem yields_contentOf (h : b.IsSound cells values busy) (hcell : cells[p]? = some c)
    (htag : c.tag.isCollection = true) :
    (contentOf p).Yields b fun content after =>
      after.Fills c content ∧ after.IsSound cells values busy ∧ b.Grows after := by
  obtain ⟨d, hd, hmeans⟩ := h.areRead.means hcell
  obtain ⟨hp, -⟩ := List.getElem?_eq_some_iff.1 hcell
  cases hmeans with
  | scalar hreader _ _ =>
      rw [not_isCollection_of_reader? hreader] at htag
      exact absurd htag (by simp)
  | @sequence items place ds hitems =>
      have hbefore : ∀ i ∈ items, i < cells.length := by
        intro i hi
        obtain ⟨e, he⟩ := exists_forall₂_iff.1 ⟨ds, hitems⟩ i hi
        exact Nat.lt_trans (lt_of_getElem?_take he).1 hp
      obtain ⟨found, after, hrun, hfound, hafter, hgrows⟩ := h.yields_items items hbefore
      refine ⟨.list found, after, ?_, .list hfound, hafter, hgrows⟩
      rw [contentOf, run_bind_of_run (h.run_cellAt hcell)]
      change StateT.run (Datum.list <$> itemsOf p) b = _
      rw [StateT.run_map, itemsOf, run_bind_of_run (h.run_cellAt hcell)]
      dsimp only
      rw [hrun]
      rfl
  | @mapping entries place fields hentries hdistinct =>
      have hfields : List.Forall₂ (fun (e : Nat × Nat) (f : String × Datum) =>
          values[e.1]? = some (.text f.1) ∧ values[e.2]? = some f.2) entries fields :=
        hentries.imp fun _ _ he => ⟨(lt_of_getElem?_take he.1).2, (lt_of_getElem?_take he.2).2⟩
      have hkeys : ∀ e ∈ entries, e.1 < cells.length := by
        intro e he
        obtain ⟨f, hf, -⟩ := exists_forall₂_iff.1 ⟨fields, hentries⟩ e he
        exact Nat.lt_trans (lt_of_getElem?_take hf).1 hp
      have hempty : HasFound values b [] [] [] := ⟨.nil, by simp⟩
      obtain ⟨found, after, hrun, hfound, hafter, hgrows⟩ :=
        h.yields_entries place hempty hfields (by simpa using hdistinct)
      refine ⟨.map (found.map (·.2)), after, ?_, .map ?_, hafter, hgrows⟩
      · rw [contentOf, run_bind_of_run (h.run_cellAt hcell)]
        change StateT.run (Datum.map <$> entriesOf p) b = _
        rw [StateT.run_map, entriesOf, run_bind_of_run (h.run_cellAt hcell)]
        dsimp only
        rw [run_bind_of_run (h.run_flatten hcell hkeys), run_bind_of_run (h.run_cellAt hcell)]
        dsimp only [Cell.entries]
        rw [run_bind_of_run hrun]
        rfl
      · rw [List.forall₂_map_right_iff]
        exact hfound

/-- The next collection is taken up. -/
theorem takeUp {k : Nat} {rest : List (Nat × Nat)} (h : b.IsSound cells values [])
    (hpending : b.pending = (k, p) :: rest) :
    Builder.IsSound cells values [(k, p)] { b with pending := rest } := by
  have hall : [(k, p)] ++ rest = [] ++ b.pending := by rw [hpending]; rfl
  refine ⟨h.areRead, h.cells_eq, h.nodup, h.means, h.number_inj, ?_, ?_⟩
  · intro n q hmem
    exact h.pending (hall ▸ hmem)
  · intro n q c hmem hcell
    rw [hall]
    have hfilled := h.filled hmem hcell
    exact hfilled.imp_right fun hfills => hfills.of_values id

/-- The collection that was taken up is filled. -/
theorem fill {k : Nat} {content : Datum} (h : b.IsSound cells values [(k, p)])
    (hcell : cells[p]? = some c) (hcontent : b.Fills c content) :
    Builder.IsSound cells values [] { b with collections := b.collections.set k content } := by
  have hmem : (p, .looped [] k) ∈ b.values := h.pending (by simp)
  obtain ⟨-, -, -, hk⟩ := h.of_looped hmem
  refine ⟨h.areRead, h.cells_eq, h.nodup, ?_, h.number_inj, ?_, ?_⟩
  · intro q v hv
    simpa using h.means hv
  · exact fun hpending => h.pending (List.mem_append_right _ hpending)
  · intro n q e hq he
    by_cases hn : n = k
    · subst hn
      obtain rfl := h.number_inj hq hmem
      obtain rfl := Option.some.inj (hcell.symm.trans he)
      refine .inr (Builder.Fills.of_values (b := b) ?_ id)
      simpa [List.getD_eq_getElem?_getD, hk] using hcontent
    · rcases h.filled hq he with hbusy | hfilled
      · rcases List.mem_append.1 hbusy with heq | hpending
        · exact absurd (Prod.mk.inj (List.mem_singleton.1 heq)).1 hn
        · exact .inl hpending
      · refine .inr (Builder.Fills.of_values (b := b) ?_ id)
        simpa [List.getD_eq_getElem?_getD, List.getElem?_set_ne (Ne.symm hn)] using hfilled

/-- All collections are filled if the fuel exceeds the work. -/
theorem yields_fillAll {fuel : Nat} (h : b.IsSound cells values []) (hfuel : b.work < fuel) :
    (fillAll fuel).Yields b fun _ after =>
      after.IsSound cells values [] ∧ after.pending = [] ∧
        ∀ {entry}, entry ∈ b.values → entry ∈ after.values := by
  induction fuel generalizing b with
  | zero => exact absurd hfuel (Nat.not_lt_zero _)
  | succ fuel ih =>
      have hget : (get : Building Builder).run b = .ok (b, b) := rfl
      cases hpending : b.pending with
      | nil =>
          refine ⟨(), b, ?_, h, hpending, id⟩
          rw [fillAll, run_bind_of_run hget, hpending]
          rfl
      | cons next rest =>
          obtain ⟨k, p⟩ := next
          have hbusy := h.takeUp hpending
          obtain ⟨c, hcell, htag, -⟩ := hbusy.of_looped (hbusy.pending List.mem_cons_self)
          obtain ⟨content, mid, hrun, hcontent, hmid, hgrows⟩ := hbusy.yields_contentOf hcell htag
          have hfilled := hmid.fill hcell hcontent
          have hwork : Builder.work { mid with collections := mid.collections.set k content } < fuel := by
            have hle := hgrows.work_le
            simp only [Builder.work, hpending, List.length_cons] at hle hfuel ⊢
            omega
          obtain ⟨⟨⟩, after, hlast, hafter, hdone, hvalues⟩ := ih hfilled hwork
          refine ⟨(), after, ?_, hafter, hdone, fun hentry => hvalues (hgrows.values hentry)⟩
          have hmodify : (modify fun b : Builder => { b with pending := rest } : Building Unit).run b =
              .ok ((), { b with pending := rest }) := rfl
          rw [fillAll, run_bind_of_run hget, hpending]
          dsimp only
          rw [run_bind_of_run hmodify, run_bind_of_run hrun]
          exact hlast

end Builder.IsSound

/-! ## Values in place -/

theorem nested?_eq (h : b.IsSound cells values []) (hpending : b.pending = []) (levels : Nat)
    (hv : (p, v) ∈ b.values) (hd : values[p]? = some d) (hlevels : p < levels) :
    nested? b.collections levels v = some d := by
  induction levels generalizing p v d with
  | zero => exact absurd hlevels (Nat.not_lt_zero _)
  | succ levels ih =>
      obtain ⟨c, e, hcell, he, hform⟩ := h.means hv
      obtain rfl := Option.some.inj (hd.symm.trans he)
      obtain ⟨f, hf, hmeans⟩ := h.areRead.means hcell
      obtain rfl := Option.some.inj (hd.symm.trans hf)
      cases htag : c.tag.isCollection with
      | false =>
          rw [if_neg (by simp [htag])] at hform
          subst hform
          rw [nested?]
          · intro collections k hlooped
            rw [hlooped] at hmeans
            exact absurd hmeans.isCollection (by simp [isCollection])
      | true =>
          rw [if_pos htag] at hform
          obtain ⟨k, -, rfl⟩ := hform
          have hfills : b.Fills c (b.collections.getD k .null) := by
            rcases h.filled hv hcell with hbusy | hfills
            · exact absurd hbusy (by simp [hpending])
            · exact hfills
          rw [nested?]
          generalize b.collections.getD k .null = content at hfills
          cases hfills with
          | @list tag items place found hfound =>
              cases hmeans with
              | @sequence _ _ ds hitems =>
                  have hparts : List.Forall₂
                      (fun v d => nested? b.collections levels v = some d) found ds := by
                    refine forall₂_of_common hfound hitems fun i w e hw he => ?_
                    obtain ⟨hi, he⟩ := lt_of_getElem?_take he
                    exact ih hw he (by omega)
                  dsimp only
                  rw [mapM_eq_some_of_forall₂ hparts]
                  rfl
          | @map tag entries place found hfound =>
              cases hmeans with
              | @mapping _ _ fields hentries _ =>
                  have hparts : List.Forall₂ (fun (f : Datum × Datum) (g : Datum × Datum) =>
                      (do return (f.1, ← nested? b.collections levels f.2)) = some g)
                      found (fields.map fun f => (.text f.1, f.2)) := by
                    rw [List.forall₂_map_right_iff]
                    refine forall₂_of_common hfound hentries fun i w f hw hf => ?_
                    obtain ⟨-, hkey⟩ := lt_of_getElem?_take hf.1
                    obtain ⟨hi, hvalue⟩ := lt_of_getElem?_take hf.2
                    rw [h.eq_text hw.1 hkey, ih hw.2 hvalue (by omega)]
                    rfl
                  dsimp only
                  rw [mapM_eq_some_of_forall₂ hparts]
                  rfl

theorem within_of_not_isCollection (hd : isCollection d = false) (collections : List Datum) :
    d.within collections = d := by
  cases d <;> first | rfl | exact absurd hd (by simp [isCollection])

theorem isSound_start (h : AreRead cells values) :
    Builder.IsSound cells values [] ⟨cells, [], [], []⟩ := by
  refine ⟨h, rfl, List.nodup_nil, ?_, ?_, ?_, ?_⟩ <;> simp

/-- A document has the value that its node denotes. -/
theorem Node.Denotes.value {n : Node} (h : n.Denotes d) : Document.value ⟨n, []⟩ = .ok d := by
  obtain ⟨values, hread, hroot⟩ := h [] [] .nil
  rw [List.nil_append] at hread hroot
  obtain ⟨root, cells, hlay⟩ : ∃ root cells, n.lay [] = (root, cells) := ⟨_, _, rfl⟩
  rw [hlay] at hread hroot
  dsimp only at hread hroot
  have hbound : root < cells.length := by
    rw [hread.length_eq]
    exact (List.getElem?_eq_some_iff.1 hroot).1
  obtain ⟨v, b, hrun, hv, hsound, hgrows⟩ := (isSound_start hread).yields_valueAt hbound
  have hwork : b.work < cells.length + 1 := Nat.lt_succ_of_le hgrows.work_le
  obtain ⟨⟨⟩, after, hfill, hafter, hdone, hvalues⟩ := hsound.yields_fillAll hwork
  have hnested := nested?_eq hafter hdone (2 * cells.length + 2) (hvalues hv) hroot (by omega)
  have hdatum : isCollection d = false := by
    obtain ⟨e, he, hmeans⟩ := hread.means (List.getElem?_eq_getElem hbound)
    obtain rfl := Option.some.inj (hroot.symm.trans he)
    exact hmeans.isCollection
  have hdocument : Document.lay ⟨n, []⟩ = (root, cells) := by
    rw [← hlay]
    rfl
  rw [Document.value, hdocument]
  dsimp only
  rw [run_bind_of_run hrun, run_bind_of_run hfill]
  change Except.ok (assembled after.collections (2 * cells.length + 2) v) = _
  rw [assembled]
  dsimp only
  rw [hnested]
  exact congrArg Except.ok (within_of_not_isCollection hdatum _)

end Arranger.Yaml
