import Arranger.Proofs.Yaml.Layout

/-!
# Values from tokens

A run of tokens denotes a value if a node is read from it, whatever follows, and the node has the
value.  Collections denote their values if their parts do.
-/

namespace Arranger.Yaml

open Composing (blockEntries blockItems indentlessItems)

/-! ## Reading nodes -/

namespace Composing

variable {c after behind : Composer} {t : Token} {rest : List Token} {start stop began : Mark}
  {fuel : Nat} {allows : Bool} {n : Node} {items : List Node} {entries : List (Node × Node)}

theorem run_nodeUnless
    {stops : List Token.Content} (ht : stops.contains t.content = false) (hc : c.tokens = t :: rest)
    (place : Mark) (read : Composing Node) : (nodeUnless stops place read).run c = read.run c := by
  obtain ⟨tokens, end?, handles, anchors, shared⟩ := c
  obtain rfl : tokens = t :: rest := hc
  change (if stops.contains t.content then (return Node.absent place : Composing Node) else
    read).run _ = _
  rw [ht]
  rfl

theorem run_node_scalar {text : ScalarText} (hc : c.tokens = ⟨.scalar text, start, stop⟩ :: rest) :
    (node true allows (fuel + 1)).run c =
      .ok (.scalar (scalarTag ⟨none, none, none⟩ text) text start, { c with tokens := rest }) := by
  obtain ⟨tokens, end?, handles, anchors, shared⟩ := c
  obtain rfl : tokens = _ := hc
  rfl

theorem run_node_sequence
    (hc : c.tokens = ⟨.blockSequenceStart, start, stop⟩ :: rest)
    (hitems : (blockItems start fuel).run { c with tokens := rest } = .ok (items, after)) :
    (node true allows (fuel + 1)).run c = .ok (.sequence .seq items start, after) := by
  obtain ⟨tokens, end?, handles, anchors, shared⟩ := c
  obtain rfl : tokens = _ := hc
  change Except.bind ((blockItems start fuel).run ⟨rest, end?, handles, anchors, shared⟩) _ = _
  rw [hitems]
  rfl

theorem run_node_mapping
    (hc : c.tokens = ⟨.blockMappingStart, start, stop⟩ :: rest)
    (hentries : (blockEntries start fuel).run { c with tokens := rest } = .ok (entries, after)) :
    (node true allows (fuel + 1)).run c = .ok (.mapping .map entries start, after) := by
  obtain ⟨tokens, end?, handles, anchors, shared⟩ := c
  obtain rfl : tokens = _ := hc
  change Except.bind ((blockEntries start fuel).run ⟨rest, end?, handles, anchors, shared⟩) _ = _
  rw [hentries]
  rfl

theorem run_node_indentless
    (hc : c.tokens = ⟨.blockEntry, start, stop⟩ :: rest)
    (hitems : (indentlessItems fuel).run c = .ok (items, after)) :
    (node true true (fuel + 1)).run c = .ok (.sequence .seq items start, after) := by
  obtain ⟨tokens, end?, handles, anchors, shared⟩ := c
  obtain rfl : tokens = _ := hc
  change Except.bind ((indentlessItems fuel).run _) _ = _
  rw [hitems]
  rfl

theorem run_node_empty {opening closing : Token}
    (hc : c.tokens = opening :: closing :: rest) (hopening : opening.content = .flowSequenceStart)
    (hclosing : closing.content = .flowSequenceEnd) :
    (node true allows (fuel + 2)).run c =
      .ok (.sequence .seq [] opening.start, { c with tokens := rest }) := by
  obtain ⟨tokens, end?, handles, anchors, shared⟩ := c
  obtain rfl : tokens = _ := hc
  obtain ⟨opened, start, stop⟩ := opening
  obtain rfl : opened = _ := hopening
  obtain ⟨closed, place, behind⟩ := closing
  obtain rfl : closed = _ := hclosing
  rfl

theorem run_blockItems_entry
    (hc : c.tokens = ⟨.blockEntry, start, stop⟩ :: t :: rest)
    (ht : [Token.Content.blockEntry, .blockEnd].contains t.content = false)
    (hitem : (node true false fuel).run { c with tokens := t :: rest } = .ok (n, after))
    (hitems : (blockItems began fuel).run after = .ok (items, behind)) :
    (blockItems began (fuel + 1)).run c = .ok (n :: items, behind) := by
  obtain ⟨tokens, end?, handles, anchors, shared⟩ := c
  obtain rfl : tokens = _ := hc
  change Except.bind ((nodeUnless [.blockEntry, .blockEnd] stop (node true false fuel)).run
    ⟨t :: rest, end?, handles, anchors, shared⟩) _ = _
  rw [run_nodeUnless ht rfl, hitem]
  change Except.bind ((blockItems began fuel).run after) _ = _
  rw [hitems]
  rfl

theorem run_blockItems_end (hc : c.tokens = ⟨.blockEnd, start, stop⟩ :: rest) :
    (blockItems began (fuel + 1)).run c = .ok ([], { c with tokens := rest }) := by
  obtain ⟨tokens, end?, handles, anchors, shared⟩ := c
  obtain rfl : tokens = _ := hc
  rfl

theorem run_indentlessItems_entry
    (hc : c.tokens = ⟨.blockEntry, start, stop⟩ :: t :: rest)
    (ht : [Token.Content.blockEntry, .key, .value, .blockEnd].contains t.content = false)
    (hitem : (node true false fuel).run { c with tokens := t :: rest } = .ok (n, after))
    (hitems : (indentlessItems fuel).run after = .ok (items, behind)) :
    (indentlessItems (fuel + 1)).run c = .ok (n :: items, behind) := by
  obtain ⟨tokens, end?, handles, anchors, shared⟩ := c
  obtain rfl : tokens = _ := hc
  change Except.bind ((nodeUnless [.blockEntry, .key, .value, .blockEnd] stop
    (node true false fuel)).run ⟨t :: rest, end?, handles, anchors, shared⟩) _ = _
  rw [run_nodeUnless ht rfl, hitem]
  change Except.bind ((indentlessItems fuel).run after) _ = _
  rw [hitems]
  rfl

theorem run_indentlessItems_end
    (hc : c.tokens = t :: rest) (ht : t.content ≠ .blockEntry) :
    (indentlessItems fuel).run c = .ok ([], c) := by
  cases fuel with
  | zero => rfl
  | succ fuel =>
      obtain ⟨tokens, end?, handles, anchors, shared⟩ := c
      obtain rfl : tokens = _ := hc
      change (if t.content = .blockEntry then _ else (return [] : Composing (List Node))).run _ = _
      rw [if_neg ht]
      rfl

theorem run_blockEntries_entry
    {name : ScalarText} {place placeStop colon colonStop : Mark}
    (hc : c.tokens = ⟨.key, start, stop⟩ :: ⟨.scalar name, place, placeStop⟩ ::
      ⟨.value, colon, colonStop⟩ :: t :: rest)
    (ht : [Token.Content.key, .value, .blockEnd].contains t.content = false)
    (hvalue : (node true true (fuel + 1)).run { c with tokens := t :: rest } = .ok (n, after))
    (hentries : (blockEntries began (fuel + 1)).run after = .ok (entries, behind)) :
    (blockEntries began (fuel + 2)).run c =
      .ok ((.scalar (scalarTag ⟨none, none, none⟩ name) name place, n) :: entries, behind) := by
  obtain ⟨tokens, end?, handles, anchors, shared⟩ := c
  obtain rfl : tokens = _ := hc
  change Except.bind ((nodeUnless [.key, .value, .blockEnd] colonStop
    (node true true (fuel + 1))).run ⟨t :: rest, end?, handles, anchors, shared⟩) _ = _
  rw [run_nodeUnless ht rfl, hvalue]
  change Except.bind ((blockEntries began (fuel + 1)).run after) _ = _
  rw [hentries]
  rfl

theorem run_blockEntries_end (hc : c.tokens = ⟨.blockEnd, start, stop⟩ :: rest) :
    (blockEntries began (fuel + 1)).run c = .ok ([], { c with tokens := rest }) := by
  obtain ⟨tokens, end?, handles, anchors, shared⟩ := c
  obtain rfl : tokens = _ := hc
  rfl

theorem except_ok_bind {ε α β : Type} (x : α) (f : α → Except ε β) :
    (Except.ok x >>= f) = f x := rfl

theorem run_peek (hc : c.tokens = t :: rest) : peek.run c = .ok (t, c) := by
  obtain ⟨tokens, end?, handles, anchors, shared⟩ := c
  obtain rfl : tokens = _ := hc
  rfl

theorem run_document
    (hc : c.tokens = t :: rest) (hdirective : isDirective t.content = false)
    (hstart : t.content ≠ .documentStart)
    (hnode : (node true false (2 * c.tokens.length + 2)).run { c with handles := defaultHandles } =
      .ok (n, after)) : document.run c = .ok (n, after) := by
  rw [document, StateT.run_bind, run_peek hc, except_ok_bind, if_neg (by simp [hdirective, hstart])]
  exact hnode

theorem run_single
    (hc : c.tokens = t :: rest) (ht : t.content ≠ .streamEnd)
    (hdocument : document.run c = .ok (n, after))
    (hafter : after.tokens = [⟨.streamEnd, start, stop⟩]) :
    single.run c = .ok (some n, after) := by
  have hnext : (isNext .streamEnd).run c = .ok (false, c) := by
    rw [isNext, StateT.run_bind, run_peek hc]
    change Except.ok (decide (t.content = .streamEnd), c) = _
    rw [decide_eq_false ht]
  rw [single, StateT.run_bind, hnext, except_ok_bind, if_neg (by simp), StateT.run_bind, hdocument]
  obtain ⟨tokens, end?, handles, anchors, shared⟩ := after
  obtain rfl : tokens = _ := hafter
  rfl

end Composing

/-! ## Contents of values -/

/-- Tokens with the given contents are read as a node with the given value.  A sequence that is not
indented ends at a token that begins no item. -/
structure ReadsNode (allowsIndentless : Bool) (contents : List Token.Content) (d : Datum) : Prop where
  begins : ∃ first more, contents = first :: more ∧ first ≠ .key ∧ first ≠ .value ∧
    first ≠ .blockEnd ∧ (allowsIndentless = false → first ≠ .blockEntry)
  reads : ∀ found : List Token, found.map Token.content = contents →
    ∀ (rest : List Token) (c : Composer) (fuel : Nat), c.tokens = found ++ rest →
      (allowsIndentless = true → ∃ t more, rest = t :: more ∧ t.content ≠ .blockEntry) →
      2 * contents.length ≤ fuel →
      ∃ n, (Composing.node true allowsIndentless fuel).run c = .ok (n, { c with tokens := rest }) ∧
        n.Denotes d

variable {allows : Bool}

theorem exists_token
    {found : List Token} {content : Token.Content} {contents : List Token.Content}
    (h : found.map Token.content = content :: contents) :
    ∃ start stop more, found = ⟨content, start, stop⟩ :: more ∧
      more.map Token.content = contents := by
  obtain ⟨⟨first, start, stop⟩, more, rfl, hfirst, hmore⟩ := List.map_eq_cons_iff.1 h
  exact ⟨start, stop, more, by rw [← hfirst], hmore⟩

theorem readsNode_scalar
    {text : ScalarText} {d : Datum}
    (hd : ∀ place, (Node.scalar (Composing.scalarTag ⟨none, none, none⟩ text) text place).Denotes d) :
    ReadsNode allows [.scalar text] d where
  begins := ⟨_, _, rfl, by simp⟩
  reads := by
    intro found hfound rest c fuel hc _ hfuel
    obtain ⟨start, stop, more, rfl, hmore⟩ := exists_token hfound
    obtain rfl : more = [] := List.map_eq_nil_iff.1 hmore
    obtain ⟨fuel, rfl⟩ : ∃ left, fuel = left + 1 := ⟨fuel - 1, by simp at hfuel; omega⟩
    exact ⟨_, Composing.run_node_scalar hc, hd start⟩

theorem readsNode_empty :
    ReadsNode allows [.flowSequenceStart, .flowSequenceEnd] (.list []) where
  begins := ⟨_, _, rfl, by simp⟩
  reads := by
    intro found hfound rest c fuel hc _ hfuel
    obtain ⟨start, stop, closing, rfl, hclosing⟩ := exists_token hfound
    obtain ⟨place, end?, more, rfl, hmore⟩ := exists_token hclosing
    obtain rfl : more = [] := List.map_eq_nil_iff.1 hmore
    obtain ⟨fuel, rfl⟩ : ∃ left, fuel = left + 2 := ⟨fuel - 2, by simp at hfuel; omega⟩
    exact ⟨_, Composing.run_node_empty hc rfl rfl, denotes_sequence start .nil⟩

/-- The contents of the items of a sequence. -/
def itemContents (items : List (List Token.Content)) : List Token.Content := items.flatMap (.blockEntry :: ·)

theorem ReadsNode.exists_found
    {contents : List Token.Content} {d : Datum} (h : ReadsNode allows contents d) {found : List Token}
    (hfound : found.map Token.content = contents) :
    ∃ t more, found = t :: more ∧ t.content ≠ .key ∧ t.content ≠ .value ∧ t.content ≠ .blockEnd ∧
      (allows = false → t.content ≠ .blockEntry) := by
  obtain ⟨first, more, rfl, hfirst⟩ := h.begins
  obtain ⟨start, stop, tokens, rfl, -⟩ := exists_token hfound
  exact ⟨_, tokens, rfl, hfirst⟩

theorem exists_append_token
    {found : List Token} {first rest : List Token.Content}
    (h : found.map Token.content = first ++ rest) :
    ∃ a b, found = a ++ b ∧ a.map Token.content = first ∧ b.map Token.content = rest := by
  obtain ⟨a, b, rfl, ha, hb⟩ := List.map_eq_append_iff.1 h
  exact ⟨a, b, rfl, ha, hb⟩

theorem run_blockItems
    {items : List (List Token.Content)} {ds : List Datum} (h : List.Forall₂ (ReadsNode false) items ds)
    {found : List Token} (hfound : found.map Token.content = itemContents items ++ [.blockEnd])
    (began : Mark) (rest : List Token) (c : Composer) (fuel : Nat) (hc : c.tokens = found ++ rest)
    (hfuel : 2 * (itemContents items ++ [Token.Content.blockEnd]).length ≤ fuel) :
    ∃ nodes, (blockItems began fuel).run c = .ok (nodes, { c with tokens := rest }) ∧
      List.Forall₂ Node.Denotes nodes ds := by
  induction h generalizing found c fuel with
  | nil =>
      obtain ⟨start, stop, more, rfl, hmore⟩ := exists_token hfound
      obtain rfl : more = [] := List.map_eq_nil_iff.1 hmore
      obtain ⟨fuel, rfl⟩ : ∃ left, fuel = left + 1 := ⟨fuel - 1, by simp at hfuel; omega⟩
      exact ⟨[], Composing.run_blockItems_end hc, .nil⟩
  | @cons contents d items ds hitem _ ih =>
      have hsplit : itemContents (contents :: items) ++ [Token.Content.blockEnd] =
          .blockEntry :: (contents ++ (itemContents items ++ [.blockEnd])) := by
        simp [itemContents]
      rw [hsplit] at hfound hfuel
      obtain ⟨start, stop, more, rfl, hmore⟩ := exists_token hfound
      obtain ⟨here, later, rfl, hhere, hlater⟩ := exists_append_token hmore
      obtain ⟨t, tail, rfl, hkey, hvalue, hend, hentry⟩ := hitem.exists_found hhere
      simp only [List.length_cons, List.length_append] at hfuel
      obtain ⟨fuel, rfl⟩ : ∃ left, fuel = left + 1 := ⟨fuel - 1, by omega⟩
      obtain ⟨n, hn, hd⟩ := hitem.reads (t :: tail) hhere (later ++ rest)
        { c with tokens := (t :: tail) ++ (later ++ rest) } fuel rfl (by simp) (by omega)
      obtain ⟨nodes, hnodes, hds⟩ := ih hlater { c with tokens := later ++ rest } fuel rfl
        (by simp only [List.length_append, List.length_cons]; omega)
      refine ⟨n :: nodes, ?_, .cons hd hds⟩
      have htokens : c.tokens = ⟨.blockEntry, start, stop⟩ :: t :: (tail ++ (later ++ rest)) := by
        rw [hc]
        simp
      apply Composing.run_blockItems_entry htokens _ hn hnodes
      simp [hentry rfl, hend]

theorem readsNode_sequence
    {items : List (List Token.Content)} {ds : List Datum}
    (h : List.Forall₂ (ReadsNode false) items ds) :
    ReadsNode allows (.blockSequenceStart :: (itemContents items ++ [.blockEnd])) (.list ds) where
  begins := ⟨_, _, rfl, by simp⟩
  reads := by
    intro found hfound rest c fuel hc _ hfuel
    obtain ⟨start, stop, more, rfl, hmore⟩ := exists_token hfound
    rw [List.length_cons] at hfuel
    obtain ⟨fuel, rfl⟩ : ∃ left, fuel = left + 1 := ⟨fuel - 1, by omega⟩
    obtain ⟨nodes, hnodes, hds⟩ := run_blockItems h hmore start rest
      { c with tokens := more ++ rest } fuel rfl (by omega)
    exact ⟨_, Composing.run_node_sequence hc hnodes, denotes_sequence start hds⟩

theorem run_indentlessItems
    {items : List (List Token.Content)} {ds : List Datum} (h : List.Forall₂ (ReadsNode false) items ds)
    {found : List Token} (hfound : found.map Token.content = itemContents items)
    {t : Token} (ht : t.content ≠ .blockEntry) (rest : List Token) (c : Composer) (fuel : Nat)
    (hc : c.tokens = found ++ t :: rest) (hfuel : 2 * (itemContents items).length ≤ fuel + 1) :
    ∃ nodes, (indentlessItems fuel).run c = .ok (nodes, { c with tokens := t :: rest }) ∧
      List.Forall₂ Node.Denotes nodes ds := by
  induction h generalizing found c fuel with
  | nil =>
      obtain rfl : found = [] := List.map_eq_nil_iff.1 hfound
      refine ⟨[], ?_, .nil⟩
      rw [Composing.run_indentlessItems_end hc ht]
      simp only [List.nil_append] at hc
      rw [← hc]
  | @cons contents d items ds hitem _ ih =>
      have hsplit : itemContents (contents :: items) =
          .blockEntry :: (contents ++ itemContents items) := by
        simp [itemContents]
      rw [hsplit] at hfound hfuel
      obtain ⟨start, stop, more, rfl, hmore⟩ := exists_token hfound
      obtain ⟨here, later, rfl, hhere, hlater⟩ := exists_append_token hmore
      obtain ⟨u, tail, rfl, hkey, hvalue, hend, hentry⟩ := hitem.exists_found hhere
      simp only [List.length_cons, List.length_append] at hfuel
      have hlong : 0 < contents.length := by
        obtain ⟨first, more, rfl, -⟩ := hitem.begins
        simp
      obtain ⟨fuel, rfl⟩ : ∃ left, fuel = left + 1 := ⟨fuel - 1, by omega⟩
      obtain ⟨n, hn, hd⟩ := hitem.reads (u :: tail) hhere (later ++ t :: rest)
        { c with tokens := (u :: tail) ++ (later ++ t :: rest) } fuel rfl (by simp) (by omega)
      obtain ⟨nodes, hnodes, hds⟩ := ih hlater { c with tokens := later ++ t :: rest } fuel rfl
        (by omega)
      refine ⟨n :: nodes, ?_, .cons hd hds⟩
      have htokens : c.tokens = ⟨.blockEntry, start, stop⟩ :: u :: (tail ++ (later ++ t :: rest)) := by
        rw [hc]
        simp
      apply Composing.run_indentlessItems_entry htokens _ hn hnodes
      simp [hentry rfl, hkey, hvalue, hend]

theorem readsNode_indentless
    {items : List (List Token.Content)} {ds : List Datum}
    (h : List.Forall₂ (ReadsNode false) items ds) (hne : items ≠ []) :
    ReadsNode true (itemContents items) (.list ds) where
  begins := by
    obtain ⟨first, more, rfl⟩ := List.exists_cons_of_ne_nil hne
    exact ⟨_, _, rfl, by simp⟩
  reads := by
    intro found hfound rest c fuel hc hrest hfuel
    obtain ⟨first, items, rfl⟩ := List.exists_cons_of_ne_nil hne
    obtain ⟨t, later, rfl, ht⟩ := hrest rfl
    have hlong : 0 < (itemContents (first :: items)).length := by simp [itemContents]
    obtain ⟨fuel, rfl⟩ : ∃ left, fuel = left + 1 := ⟨fuel - 1, by omega⟩
    obtain ⟨nodes, hnodes, hds⟩ := run_indentlessItems h hfound ht later c fuel hc hfuel
    obtain ⟨start, stop, more, rfl, hmore⟩ := exists_token hfound
    exact ⟨_, Composing.run_node_indentless hc hnodes, denotes_sequence start hds⟩

/-- The contents of the entries of a mapping. -/
def entryContents (entries : List (String × List Token.Content)) : List Token.Content :=
  entries.flatMap fun (name, contents) => [.key, .scalar ⟨.text name, true⟩, .value] ++ contents

/-- The contents of an entry are those of a key and of its value. -/
structure ReadsEntry (entry : String × List Token.Content) (field : String × Datum) : Prop where
  name : entry.1 = field.1
  isText : implicitTag field.1 = .str
  value : ReadsNode true entry.2 field.2

/-- A name that stands for a text is read as the node of a key. -/
theorem ReadsEntry.isKey
    {name : String} {contents : List Token.Content} {field : String × Datum}
    (h : ReadsEntry (name, contents) field) (place : Mark) :
    (Node.scalar (Composing.scalarTag ⟨none, none, none⟩ ⟨.text name, true⟩) ⟨.text name, true⟩
      place).IsKey field.1 := by
  have hname : name = field.1 := h.name
  have htag : Composing.scalarTag ⟨none, none, none⟩ ⟨.text name, true⟩ = .str := by
    rw [hname]
    exact h.isText
  refine ⟨true, place, ?_⟩
  rw [htag, hname]

/-- A value is followed by another key or by the end of the mapping. -/
theorem exists_behind_value
    {entries : List (String × List Token.Content)} {later : List Token}
    (hlater : later.map Token.content = entryContents entries ++ [.blockEnd]) (rest : List Token) :
    ∃ t more, later ++ rest = t :: more ∧ t.content ≠ .blockEntry := by
  cases entries with
  | nil =>
      obtain ⟨start, stop, more, rfl, -⟩ := exists_token hlater
      exact ⟨_, _, rfl, by simp⟩
  | cons entry entries =>
      obtain ⟨start, stop, more, rfl, -⟩ := exists_token hlater
      exact ⟨_, _, rfl, by simp⟩

theorem run_blockEntries
    {entries : List (String × List Token.Content)} {fields : List (String × Datum)}
    (h : List.Forall₂ ReadsEntry entries fields) {found : List Token}
    (hfound : found.map Token.content = entryContents entries ++ [.blockEnd]) (began : Mark)
    (rest : List Token) (c : Composer) (fuel : Nat) (hc : c.tokens = found ++ rest)
    (hfuel : 2 * (entryContents entries ++ [Token.Content.blockEnd]).length ≤ fuel) :
    ∃ nodes, (blockEntries began fuel).run c = .ok (nodes, { c with tokens := rest }) ∧
      List.Forall₂ (fun entry field => entry.1.IsKey field.1 ∧ entry.2.Denotes field.2) nodes
        fields := by
  induction h generalizing found c fuel with
  | nil =>
      obtain ⟨start, stop, more, rfl, hmore⟩ := exists_token hfound
      obtain rfl : more = [] := List.map_eq_nil_iff.1 hmore
      obtain ⟨fuel, rfl⟩ : ∃ left, fuel = left + 1 := ⟨fuel - 1, by simp at hfuel; omega⟩
      exact ⟨[], Composing.run_blockEntries_end hc, .nil⟩
  | @cons entry field entries fields hentry _ ih =>
      obtain ⟨name, contents⟩ := entry
      have hsplit : entryContents ((name, contents) :: entries) ++ [Token.Content.blockEnd] =
          .key :: .scalar ⟨.text name, true⟩ :: .value ::
            (contents ++ (entryContents entries ++ [.blockEnd])) := by
        simp [entryContents]
      rw [hsplit] at hfound hfuel
      obtain ⟨start, stop, behindKey, rfl, hbehindKey⟩ := exists_token hfound
      obtain ⟨place, placeStop, behindName, rfl, hbehindName⟩ := exists_token hbehindKey
      obtain ⟨colon, colonStop, more, rfl, hmore⟩ := exists_token hbehindName
      obtain ⟨here, later, rfl, hhere, hlater⟩ := exists_append_token hmore
      obtain ⟨t, tail, rfl, hkey, hvalue, hend, -⟩ := hentry.value.exists_found hhere
      simp only [List.length_cons, List.length_append] at hfuel
      obtain ⟨fuel, rfl⟩ : ∃ left, fuel = left + 2 := ⟨fuel - 2, by omega⟩
      obtain ⟨n, hn, hd⟩ := hentry.value.reads (t :: tail) hhere (later ++ rest)
        { c with tokens := (t :: tail) ++ (later ++ rest) } (fuel + 1) rfl
        (fun _ => exists_behind_value hlater rest) (by dsimp only; omega)
      obtain ⟨nodes, hnodes, hds⟩ := ih hlater { c with tokens := later ++ rest } (fuel + 1) rfl
        (by simp only [List.length_append, List.length_cons]; omega)
      have htokens : c.tokens = ⟨.key, start, stop⟩ :: ⟨.scalar ⟨.text name, true⟩, place, placeStop⟩ ::
          ⟨.value, colon, colonStop⟩ :: t :: (tail ++ (later ++ rest)) := by
        rw [hc]
        simp
      have hkeys : [Token.Content.key, .value, .blockEnd].contains t.content = false := by
        simp [hkey, hvalue, hend]
      exact ⟨_, Composing.run_blockEntries_entry htokens hkeys hn hnodes,
        .cons ⟨hentry.isKey place, hd⟩ hds⟩

theorem readsNode_mapping
    {entries : List (String × List Token.Content)} {fields : List (String × Datum)}
    (h : List.Forall₂ ReadsEntry entries fields) (hdistinct : (fields.map (·.1)).Nodup) :
    ReadsNode allows (.blockMappingStart :: (entryContents entries ++ [.blockEnd]))
      (.record fields) where
  begins := ⟨_, _, rfl, by simp⟩
  reads := by
    intro found hfound rest c fuel hc _ hfuel
    obtain ⟨start, stop, more, rfl, hmore⟩ := exists_token hfound
    rw [List.length_cons] at hfuel
    obtain ⟨fuel, rfl⟩ : ∃ left, fuel = left + 1 := ⟨fuel - 1, by omega⟩
    obtain ⟨nodes, hnodes, hfields⟩ := run_blockEntries h hmore start rest
      { c with tokens := more ++ rest } fuel rfl (by omega)
    exact ⟨_, Composing.run_node_mapping hc hnodes, denotes_mapping start hfields hdistinct⟩

/-! ## Documents -/

/-- The only document of a text is the node of its tokens. -/
theorem ReadsNode.single
    {contents : List Token.Content} {d : Datum} (h : ReadsNode false contents d)
    (hfirst : ∀ first ∈ contents.head?, ¬Composing.isDirective first ∧ first ≠ .documentStart ∧
      first ≠ .streamEnd) {found : List Token}
    (hfound : found.map Token.content = contents ++ [.streamEnd]) :
    ∃ n c, Composing.single.run ⟨found, none, [], [], []⟩ = .ok (some n, c) ∧ c.shared = [] ∧
      n.Denotes d := by
  obtain ⟨here, behind, rfl, hhere, hbehind⟩ := exists_append_token hfound
  obtain ⟨start, stop, more, rfl, hmore⟩ := exists_token hbehind
  obtain rfl : more = [] := List.map_eq_nil_iff.1 hmore
  obtain ⟨t, tail, rfl, -⟩ := h.exists_found hhere
  have hcontent : contents.head? = some t.content := by rw [← hhere]; rfl
  obtain ⟨hdirective, hstart, hend⟩ := hfirst _ hcontent
  obtain ⟨c, hc⟩ : ∃ c : Composer, c = ⟨t :: tail ++ [⟨.streamEnd, start, stop⟩], none, [], [], []⟩ :=
    ⟨_, rfl⟩
  have htokens : c.tokens = t :: (tail ++ [⟨.streamEnd, start, stop⟩]) := by rw [hc]; rfl
  have hfuel : 2 * contents.length ≤ 2 * c.tokens.length + 2 := by
    rw [← hhere, htokens]
    simp
    omega
  obtain ⟨n, hn, hd⟩ := h.reads (t :: tail) hhere [⟨.streamEnd, start, stop⟩]
    { c with handles := Composing.defaultHandles } _ htokens (by simp) hfuel
  have hdocument := Composing.run_document htokens (by simpa using hdirective) hstart hn
  have hsingle := Composing.run_single htokens hend hdocument rfl
  rw [hc] at hsingle
  exact ⟨n, _, hsingle, rfl, hd⟩

end Arranger.Yaml
