import Arranger.Proofs.Library.Effects
import Arranger.Proofs.Library.Simulation
import Arranger.Proofs.Workspace.NewClips

/-!
# Lists of saved arrangements

A list looks into the files by itself: it takes names and lengths from their documents as they are,
and the readers of arrangements have no part in it.  A file that holds no document, or one that is
no map, is left out.  In a map, clips without a length or a name that no reply can hold make the
whole list fail.
-/

namespace Arranger

theorem Datum.fields_eq_ok_iff {d : Datum} {entries : List (Datum × Datum)} :
    d.fields = .ok entries ↔ d.view = .map entries := by
  unfold fields
  cases d.view <;> simp

namespace Library

variable {w : Workspace} {file name : String} {fields other : List (Datum × Datum)}
  {a : Arrangement}

/-! ## Files of a list -/

/-- The names of the files of arrangements. -/
abbrev filesOf (w : Workspace) : List String := arrangementFiles w.files w.arrangements

/-- What a file in the directory of arrangements holds, and when it was written. -/
abbrev readFile (w : Workspace) (file : String) : Except FileError (Content × Nat) :=
  w.files.read (w.arrangements.join file)

/-- What a list has to tell of a file; nothing if the file is left out. -/
abbrev told (w : Workspace) (file : String) : Except Fault (Option Listing) :=
  (listFile w.files w.arrangements file).result

/-- The document in the file is a map. -/
def HoldsMap (w : Workspace) (file : String) (fields : List (Datum × Datum)) : Prop :=
  ∃ content stamp d, readFile w file = .ok (content, stamp) ∧ readDocument content = .ok d ∧
    d.view = .map fields

theorem HoldsMap.unique (h : HoldsMap w file fields) (hother : HoldsMap w file other) :
    fields = other := by
  obtain ⟨content, stamp, d, hread, hdocument, hview⟩ := h
  obtain ⟨content', stamp', d', hread', hdocument', hview'⟩ := hother
  rw [hread] at hread'
  obtain ⟨rfl, rfl⟩ := Prod.mk.inj (Except.ok.inj hread')
  rw [hdocument] at hdocument'
  obtain rfl := Except.ok.inj hdocument'
  rw [hview] at hview'
  exact Datum.map.inj hview'

/-- The file can be loaded as the arrangement. -/
def Accepts (w : Workspace) (file : String) (a : Arrangement) : Prop :=
  (load (w.arrangements.join file) w).2.result = .ok a

theorem accepts_iff :
    Accepts w file a ↔ ∃ content stamp, readFile w file = .ok (content, stamp) ∧
      fromDocument (w.arrangements.join file) content = .ok a := by
  unfold Accepts load
  cases hread : readFile w file with
  | error e =>
      rw [Action.bind_of_fail (Action.inspectFiles_of_error hread)]
      simp [Outcome.fail]
  | ok found =>
      obtain ⟨content, stamp⟩ := found
      rw [Action.bind_of_value (Action.inspectFiles_of_ok hread)]
      cases hdocument : fromDocument (w.arrangements.join file) content with
      | error e =>
          simp only [hdocument]
          rw [Action.bind_of_fail (Action.ofExcept_error e)]
          simp [Outcome.fail, hdocument]
      | ok b =>
          simp only [hdocument]
          rw [Action.bind_of_value (Action.ofExcept_ok b),
            Action.bind_of_value (Action.change_apply _)]
          simp [Outcome.value, hdocument]

/-- A file that makes the whole list fail. -/
inductive Spoils (w : Workspace) (file : String) : Prop where
  /-- The bytes are no text, or a part of the document has a form that denotes no value. -/
  | value {content : Content} {stamp : Nat} {e : Yaml.Error}
      (hread : readFile w file = .ok (content, stamp))
      (hdocument : readDocument content = .error e) (hvalue : ∀ p, e ≠ .problem p)
  /-- What it has for its clips or its tracks has no length. -/
  | length {fields : List (Datum × Datum)} {key : String} {value : Datum} {e : ShapeError}
      (hmap : HoldsMap w file fields) (hkey : key ∈ ["clips", "tracks"])
      (hvalue : Datum.lookup fields key = some value) (hlength : value.length = .error e)
  /-- No reply can hold what it has for its name. -/
  | name {fields : List (Datum × Datum)} {value : Datum} {e : ShapeError}
      (hmap : HoldsMap w file fields) (hvalue : Datum.lookup fields "name" = some value)
      (hportable : Reply.portable value = .error e)

/-! ## What a list tells of a file -/

theorem lengthOf_eq_ok_iff {key : String} {n : Nat} :
    lengthOf fields key = .ok n ↔
      ((Datum.lookup fields key).getD (.list [])).length = .ok n :=
  mapError_eq_ok_iff

theorem listing_eq_ok_iff {stamp : Nat} {l : Listing} :
    listing file stamp fields = .ok l ↔
      lengthOf fields "clips" = .ok l.clips ∧ lengthOf fields "tracks" = .ok l.tracks ∧
        l.name = (Datum.lookup fields "name").getD (.text (stem file)) ∧ l.stamp = stamp := by
  unfold listing
  simp only [bind_eq_ok_iff, pure, Except.pure, Except.ok.injEq]
  constructor
  · rintro ⟨clips, hclips, tracks, htracks, rfl⟩
    exact ⟨hclips, htracks, rfl, rfl⟩
  · rintro ⟨hclips, htracks, hname, hstamp⟩
    exact ⟨l.clips, hclips, l.tracks, htracks, by rw [← hname, ← hstamp]⟩

theorem listed_eq_ok_iff {l : Listing} {entry : Datum} :
    Tool.listed l = .ok entry ↔ ∃ name, Reply.portable l.name = .ok name ∧
      entry = .record [("name", name), ("clips", Reply.count l.clips),
        ("tracks", Reply.count l.tracks)] := by
  unfold Tool.listed
  simp only [bind_eq_ok_iff, mapError_eq_ok_iff, pure, Except.pure, Except.ok.injEq]
  simp only [eq_comm]

theorem HoldsMap.told_eq (h : HoldsMap w file fields) :
    ∃ stamp, told w file = some <$> listing file stamp fields := by
  obtain ⟨content, stamp, d, hread, hdocument, hview⟩ := h
  exact ⟨stamp, by rw [told, listFile_of_read hread hdocument hview]; rfl⟩

theorem HoldsMap.exists_listing
    (h : HoldsMap w file fields) {found : Option Listing} (hfound : told w file = .ok found) :
    ∃ l stamp, found = some l ∧ listing file stamp fields = .ok l := by
  obtain ⟨stamp, htold⟩ := h.told_eq
  rw [htold] at hfound
  obtain ⟨l, hl, rfl⟩ := map_eq_ok_iff.1 hfound
  exact ⟨l, stamp, rfl, hl⟩

theorem exists_lengthOf_of_not_spoils (h : ¬Spoils w file) (hmap : HoldsMap w file fields) :
    ∀ key ∈ ["clips", "tracks"], ∃ n, lengthOf fields key = .ok n := by
  intro key hkey
  simp only [lengthOf_eq_ok_iff]
  cases hvalue : Datum.lookup fields key with
  | none => exact ⟨0, rfl⟩
  | some value =>
      cases hlength : value.length with
      | ok n => exact ⟨n, hlength⟩
      | error e => exact absurd (.length hmap hkey hvalue hlength) h

theorem exists_portable_of_not_spoils (h : ¬Spoils w file) (hmap : HoldsMap w file fields) :
    ∃ name, Reply.portable ((Datum.lookup fields "name").getD (.text (stem file))) = .ok name := by
  cases hvalue : Datum.lookup fields "name" with
  | none => exact ⟨.text (stem file), rfl⟩
  | some value =>
      cases hportable : Reply.portable value with
      | ok name => exact ⟨name, hportable⟩
      | error e => exact absurd (.name hmap hvalue hportable) h

theorem HoldsMap.exists_entry (hmap : HoldsMap w file fields) (h : ¬Spoils w file) :
    ∃ l entry, told w file = .ok (some l) ∧ Tool.listed l = .ok entry := by
  have hlengths := exists_lengthOf_of_not_spoils h hmap
  obtain ⟨clips, hclips⟩ := hlengths "clips" (by simp)
  obtain ⟨tracks, htracks⟩ := hlengths "tracks" (by simp)
  obtain ⟨name, hname⟩ := exists_portable_of_not_spoils h hmap
  obtain ⟨stamp, htold⟩ := hmap.told_eq
  let l : Listing :=
    ⟨(Datum.lookup fields "name").getD (.text (stem file)), clips, tracks, stamp⟩
  have hlisting : listing file stamp fields = .ok l :=
    listing_eq_ok_iff.2 ⟨hclips, htracks, rfl, rfl⟩
  rw [hlisting] at htold
  exact ⟨l, _, htold, listed_eq_ok_iff.2 ⟨name, hname, rfl⟩⟩

/-- A file that does not make the list fail is left out, or it has an entry. -/
theorem exists_told_of_not_spoils (h : ¬Spoils w file) :
    ∃ found, told w file = .ok found ∧ ∀ l ∈ found, ∃ entry, Tool.listed l = .ok entry := by
  cases hread : readFile w file with
  | error e => exact ⟨none, by simp [told, listFile, hread], by simp⟩
  | ok read =>
      obtain ⟨content, stamp⟩ := read
      cases hdocument : readDocument content with
      | error e =>
          by_cases hproblem : ∃ p, e = .problem p
          · obtain ⟨p, rfl⟩ := hproblem
            exact ⟨none, by simp [told, listFile, hread, hdocument], by simp⟩
          · exact absurd (.value hread hdocument (not_exists.1 hproblem)) h
      | ok d =>
          cases hview : d.view with
          | map fields =>
              have hmap : HoldsMap w file fields := ⟨content, stamp, d, hread, hdocument, hview⟩
              obtain ⟨l, entry, htold, hentry⟩ := hmap.exists_entry h
              refine ⟨some l, htold, ?_⟩
              rintro _ ⟨⟩
              exact ⟨entry, hentry⟩
          | _ => exact ⟨none, by simp [told, listFile, hread, hdocument, hview], by simp⟩

/-- Of a file that makes the list fail, the list can at most tell what no reply can hold. -/
theorem Spoils.fails
    (h : Spoils w file) {found : Option Listing} (hfound : told w file = .ok found) :
    ∃ l, found = some l ∧ ∃ e, Tool.listed l = .error e := by
  cases h with
  | @value _ _ e hread hdocument hvalue =>
      cases e with
      | problem p => exact absurd rfl (hvalue p)
      | _ => simp [told, listFile, hread, hdocument, Outcome.fail] at hfound
  | length hmap hkey hvalue hlength =>
      obtain ⟨l, stamp, -, hlisting⟩ := hmap.exists_listing hfound
      obtain ⟨hclips, htracks, -⟩ := listing_eq_ok_iff.1 hlisting
      rw [lengthOf_eq_ok_iff] at hclips htracks
      rcases List.mem_pair.1 hkey with rfl | rfl
      · simp [hvalue, hlength] at hclips
      · simp [hvalue, hlength] at htracks
  | name hmap hvalue hportable =>
      obtain ⟨l, stamp, rfl, hlisting⟩ := hmap.exists_listing hfound
      obtain ⟨-, -, hname, -⟩ := listing_eq_ok_iff.1 hlisting
      refine ⟨l, rfl, ?_⟩
      simp [Tool.listed, hname, hvalue, hportable, Except.mapError, bind, Except.bind]

theorem not_spoils_iff :
    ¬Spoils w file ↔
      ∃ found, told w file = .ok found ∧ ∀ l ∈ found, ∃ entry, Tool.listed l = .ok entry := by
  refine ⟨exists_told_of_not_spoils, ?_⟩
  rintro ⟨found, hfound, hlisted⟩ hspoils
  obtain ⟨l, rfl, e, he⟩ := hspoils.fails hfound
  obtain ⟨entry, hentry⟩ := hlisted l rfl
  rw [he] at hentry
  cases hentry

theorem not_spoils_of_unreadable (hread : (readFile w file).isOk = false) : ¬Spoils w file := by
  cases herror : readFile w file with
  | ok found =>
      rw [herror] at hread
      cases hread
  | error e => exact not_spoils_iff.2 ⟨none, by simp [told, listFile, herror], by simp⟩

/-! ## Lists -/

/-- What a list has of a file, if it has something. -/
def listing? (w : Workspace) (file : String) : Option Listing :=
  (told w file).toOption.join

/-- The entry of a file in the reply with a list, if it has one. -/
def entryOf? (w : Workspace) (file : String) : Option Datum :=
  (listing? w file).bind fun l => (Tool.listed l).toOption

theorem listing?_of_told {found : Option Listing} (h : told w file = .ok found) :
    listing? w file = found := by
  rw [listing?, h]
  cases found <;> rfl

theorem listFiles_eq_ok_iff {files : List String} {found : List Listing} :
    (listFiles w.files w.arrangements files).result = .ok found ↔
      (∀ file ∈ files, ∃ l, told w file = .ok l) ∧
        found = files.filterMap (listing? w) := by
  induction files generalizing found with
  | nil => simp [listFiles, Outcome.value, eq_comm]
  | cons file rest ih =>
      simp only [listFiles, Outcome.result_andThen_eq_ok_iff, ih, List.forall_mem_cons]
      constructor
      · rintro ⟨l, hl, more, ⟨hrest, rfl⟩, hfound⟩
        refine ⟨⟨⟨l, hl⟩, hrest⟩, ?_⟩
        rw [← Except.ok.inj hfound, List.filterMap_cons, listing?_of_told hl]
        cases l <;> rfl
      · rintro ⟨⟨⟨l, hl⟩, hrest⟩, rfl⟩
        refine ⟨l, hl, _, ⟨hrest, rfl⟩, ?_⟩
        rw [List.filterMap_cons, listing?_of_told hl]
        cases l <;> rfl

theorem list_eq_ok_iff {found : List Listing} :
    (list w).result = .ok found ↔
      (∀ file ∈ filesOf w, ∃ l, told w file = .ok l) ∧
        found = ((filesOf w).filterMap (listing? w)).mergeSort fun l m => m.stamp ≤ l.stamp := by
  simp only [list, Outcome.result_andThen_eq_ok_iff, listFiles_eq_ok_iff]
  constructor
  · rintro ⟨_, ⟨hfiles, rfl⟩, hfound⟩
    exact ⟨hfiles, (Except.ok.inj hfound).symm⟩
  · rintro ⟨hfiles, rfl⟩
    exact ⟨_, ⟨hfiles, rfl⟩, rfl⟩

theorem listing?_eq_some_iff {l : Listing} :
    listing? w file = some l ↔ told w file = .ok (some l) := by
  unfold listing?
  cases told w file with
  | error e => simp [Except.toOption]
  | ok found => cases found <;> simp [Except.toOption]

theorem exists_list_iff :
    (∃ found, (list w).result = .ok found) ↔ ∀ file ∈ filesOf w, ∃ l, told w file = .ok l := by
  simp only [list_eq_ok_iff, exists_and_left, exists_eq, and_true]

theorem mem_list_iff {found : List Listing} {l : Listing} (h : (list w).result = .ok found) :
    l ∈ found ↔ ∃ file ∈ filesOf w, told w file = .ok (some l) := by
  obtain ⟨-, rfl⟩ := list_eq_ok_iff.1 h
  simp only [List.mem_mergeSort, List.mem_filterMap, listing?_eq_some_iff]

theorem listArrangements_eq_ok_iff {args : Arguments} {reply : Datum} :
    (Tool.listArrangements args w).2.result = .ok reply ↔
      ∃ found, (list w).result = .ok found ∧ ∃ entries, found.mapM Tool.listed = .ok entries ∧
        reply = Reply.success [("arrangements", .list entries)] := by
  unfold Tool.listArrangements
  rw [Action.bind_of_value Action.current_apply, Action.result_bind_eq_ok_iff]
  simp only [Action.result_bind_eq_ok_iff, Action.ofExcept, Action.ofOutcome, Outcome.of,
    Action.pure_apply, Outcome.value, Except.ok.injEq]
  simp only [eq_comm]

/-- A call for a list succeeds if no file makes the list fail. -/
theorem exists_listArrangements_iff {args : Arguments} :
    (∃ reply, (Tool.listArrangements args w).2.result = .ok reply) ↔
      ∀ file ∈ filesOf w, ¬Spoils w file := by
  simp only [listArrangements_eq_ok_iff, not_spoils_iff]
  constructor
  · rintro ⟨_, found, hlist, entries, hentries, -⟩ file hfile
    obtain ⟨l, hl⟩ := exists_list_iff.1 ⟨found, hlist⟩ file hfile
    refine ⟨l, hl, ?_⟩
    rintro m rfl
    exact exists_mapM_iff.1 ⟨entries, hentries⟩ m ((mem_list_iff hlist).2 ⟨file, hfile, hl⟩)
  · intro h
    obtain ⟨found, hlist⟩ := exists_list_iff.2 fun file hfile =>
      let ⟨l, hl, _⟩ := h file hfile
      ⟨l, hl⟩
    have hlisted : ∀ l ∈ found, ∃ entry, Tool.listed l = .ok entry := by
      intro l hl
      obtain ⟨file, hfile, hread⟩ := (mem_list_iff hlist).1 hl
      obtain ⟨m, hm, hlisted⟩ := h file hfile
      rw [hm] at hread
      exact hlisted l (Except.ok.inj hread)
    obtain ⟨entries, hentries⟩ := exists_mapM_iff.2 hlisted
    exact ⟨_, found, hlist, entries, hentries, rfl⟩

theorem perm_of_listArrangements
    {args : Arguments} {reply : Datum}
    (h : (Tool.listArrangements args w).2.result = .ok reply) :
    ∃ entries, reply = Reply.success [("arrangements", .list entries)] ∧
      entries.Perm ((filesOf w).filterMap (entryOf? w)) := by
  obtain ⟨found, hfound, entries, hentries, rfl⟩ := listArrangements_eq_ok_iff.1 h
  refine ⟨entries, rfl, ?_⟩
  obtain ⟨-, rfl⟩ := list_eq_ok_iff.1 hfound
  rw [eq_filterMap_of_mapM hentries]
  refine ((List.mergeSort_perm _ _).filterMap _).trans ?_
  rw [List.filterMap_filterMap]
  exact .refl _

/-! ## Files that are accepted -/

/-- How a list names the file of an arrangement. -/
inductive TitledAs (w : Workspace) (file : String) (a : Arrangement) : Datum → Prop where
  | label {fields : List (Datum × Datum)} (hmap : HoldsMap w file fields)
      (hname : Datum.lookup fields "name" = some (.ofLabel a.name)) :
      TitledAs w file a (.ofLabel a.name)
  /-- Bytes are decoded for the arrangement only. -/
  | bytes {fields : List (Datum × Datum)} {bs : List UInt8} {name : String}
      (hmap : HoldsMap w file fields) (hname : Datum.lookup fields "name" = some (.bytes bs))
      (hdecode : String.fromUTF8? (ByteArray.mk bs.toArray) = some name)
      (hdecoded : a.name = .text name) : TitledAs w file a (.bytes bs)
  /-- Without a name the arrangement has the default name, and the list shows that of the file. -/
  | unnamed {fields : List (Datum × Datum)} (hmap : HoldsMap w file fields)
      (hname : Datum.lookup fields "name" = none) (hdefault : a.name = .text Arrangement.defaultName) :
      TitledAs w file a (.text (stem file))

theorem readLabel_eq_ok {d : Datum} {l : Label} (h : Schema.readLabel d = .ok l) :
    d = .ofLabel l ∨ ∃ bs s, d = .bytes bs ∧
      String.fromUTF8? (ByteArray.mk bs.toArray) = some s ∧ l = .text s := by
  cases d with
  | text s => exact Or.inl (Except.ok.inj h ▸ rfl)
  | brokenText t => exact Or.inl (Except.ok.inj h ▸ rfl)
  | bytes bs =>
      cases hdecode : String.fromUTF8? (ByteArray.mk bs.toArray) with
      | none => simp [Schema.readLabel, Schema.readLabelOr, Schema.Checked.reject, hdecode] at h
      | some s =>
          simp only [Schema.readLabel, Schema.readLabelOr, hdecode, Except.ok.injEq] at h
          exact Or.inr ⟨bs, s, rfl, hdecode, h.symm⟩
  | _ => cases h

theorem lengthOf_of_partsOr
    {key : String} {parts : List Datum} (h : Arrangement.partsOr fields key = .ok parts) :
    lengthOf fields key = .ok parts.length := by
  have hparts := mapError_eq_ok_iff.1 h
  rw [lengthOf_eq_ok_iff, Datum.length, hparts]

theorem name_of_readHead
    {given value : Datum} {head : Unit × Label} (hvalue : given.get? "name" = some value)
    (h : Arrangement.ofRejection ((Arrangement.readHead given).titled Arrangement.title) = .ok head) :
    Schema.readLabel value = .ok head.2 := by
  have hhead := Schema.Checked.titled_eq_ok_iff.1 (mapError_eq_ok_iff.1 h)
  exact (Schema.fieldOr_eq_ok_iff hvalue).1 (Schema.Checked.both_eq_ok_iff.1 hhead).2

theorem ofDatum_eq_ok {d : Datum} (h : Arrangement.ofDatum d = .ok a) :
    ∃ fields, d.view = .map fields ∧ lengthOf fields "clips" = .ok a.clips.length ∧
      lengthOf fields "tracks" = .ok a.tracks.length ∧
        Schema.readLabel ((Datum.lookup fields "name").getD (.text Arrangement.defaultName)) =
          .ok a.name := by
  simp only [Arrangement.ofDatum, bind_eq_ok_iff, pure, Except.pure, Except.ok.injEq] at h
  obtain ⟨fields, hfields, clipParts, hclipParts, clips, hclips, trackParts, htrackParts, tracks,
    htracks, head, hhead, rfl⟩ := h
  have hview : d.view = .map fields := Datum.fields_eq_ok_iff.1 (mapError_eq_ok_iff.1 hfields)
  refine ⟨fields, hview, ?_, ?_, name_of_readHead (by simp) hhead⟩
  · rw [length_eq_of_mapM hclips]
    exact lengthOf_of_partsOr hclipParts
  · rw [length_eq_of_mapM htracks]
    exact lengthOf_of_partsOr htrackParts

theorem Accepts.holdsMap (h : Accepts w file a) :
    ∃ fields, HoldsMap w file fields ∧ lengthOf fields "clips" = .ok a.clips.length ∧
      lengthOf fields "tracks" = .ok a.tracks.length ∧
        Schema.readLabel ((Datum.lookup fields "name").getD (.text Arrangement.defaultName)) =
          .ok a.name := by
  obtain ⟨content, stamp, hread, hfrom⟩ := accepts_iff.1 h
  obtain ⟨document, hdocument, harrangement⟩ := bind_eq_ok_iff.1 hfrom
  obtain ⟨fields, hview, hfields⟩ := ofDatum_eq_ok harrangement
  exact ⟨fields, ⟨content, stamp, document, hread, mapError_eq_ok_iff.1 hdocument, hview⟩, hfields⟩

theorem HoldsMap.accepts
    (h : HoldsMap w file fields) (hdatum : Arrangement.ofDatum (.map fields) = .ok a) :
    Accepts w file a := by
  obtain ⟨content, stamp, d, hread, hdocument, hview⟩ := h
  refine accepts_iff.2 ⟨content, stamp, hread, ?_⟩
  rw [fromDocument, hdocument]
  have hsame : Arrangement.ofDatum d = Arrangement.ofDatum (.map fields) := by
    unfold Arrangement.ofDatum
    rw [Datum.fields_eq_ok_iff.2 hview]
    rfl
  exact hsame.trans hdatum

theorem TitledAs.eq_of_unnamed
    {d : Datum} (h : TitledAs w file a d) (hmap : HoldsMap w file fields)
    (hname : Datum.lookup fields "name" = none) : d = .text (stem file) := by
  cases h with
  | label hother hsome => rw [hother.unique hmap, hname] at hsome; cases hsome
  | bytes hother hsome _ _ => rw [hother.unique hmap, hname] at hsome; cases hsome
  | unnamed _ _ _ => rfl

theorem TitledAs.lookup_of_bytes {bs : List UInt8} (h : TitledAs w file a (.bytes bs)) :
    ∃ fields, HoldsMap w file fields ∧ Datum.lookup fields "name" = some (.bytes bs) := by
  generalize hd : Datum.bytes bs = d at h
  cases h with
  | label _ _ => cases hname : a.name <;> simp [Datum.ofLabel, hname] at hd
  | bytes hmap hname _ _ => exact ⟨_, hmap, hd ▸ hname⟩
  | unnamed _ _ _ => cases hd

theorem TitledAs.eq_or_eq_stem {title : String} (h : TitledAs w file a (.text title)) :
    a.name = .text title ∨ title = stem file := by
  generalize hd : Datum.text title = d at h
  cases h with
  | label _ _ =>
      cases hname : a.name <;> simp [Datum.ofLabel, hname] at hd
      exact Or.inl (congrArg _ hd.symm)
  | bytes _ _ _ _ => cases hd
  | unnamed _ _ _ => exact Or.inr (Datum.text.inj hd)

/-- A list tells of a file that is accepted how many clips and tracks the arrangement has. -/
theorem Accepts.listed (h : Accepts w file a) :
    ∃ l, told w file = .ok (some l) ∧
      TitledAs w file a l.name ∧ l.clips = a.clips.length ∧ l.tracks = a.tracks.length := by
  obtain ⟨fields, hmap, hclips, htracks, hname⟩ := h.holdsMap
  obtain ⟨stamp, htold⟩ := hmap.told_eq
  let l : Listing := ⟨(Datum.lookup fields "name").getD (.text (stem file)), a.clips.length,
    a.tracks.length, stamp⟩
  have hlisting : listing file stamp fields = .ok l :=
    listing_eq_ok_iff.2 ⟨hclips, htracks, rfl, rfl⟩
  refine ⟨l, by rw [htold, hlisting]; rfl, ?_, rfl, rfl⟩
  change TitledAs w file a ((Datum.lookup fields "name").getD (.text (stem file)))
  cases hvalue : Datum.lookup fields "name" with
  | none =>
      rw [hvalue] at hname
      exact .unnamed hmap hvalue (Except.ok.inj hname).symm
  | some value =>
      rw [hvalue] at hname
      rcases readLabel_eq_ok hname with rfl | ⟨bs, s, rfl, hdecode, hdecoded⟩
      · exact .label hmap hvalue
      · exact .bytes hmap hvalue hdecode hdecoded

theorem listed_of_label (l : Listing) {name : Label} (hname : l.name = .ofLabel name) :
    Tool.listed l = .ok (.record [("name", .ofLabel name), ("clips", Reply.count l.clips),
      ("tracks", Reply.count l.tracks)]) := by
  refine listed_eq_ok_iff.2 ⟨_, ?_, rfl⟩
  rw [hname]
  cases name <;> rfl

/-- A file that is accepted makes a list fail only by a name in bytes. -/
theorem Accepts.spoils_iff (h : Accepts w file a) :
    Spoils w file ↔ ∃ bs, TitledAs w file a (.bytes bs) := by
  constructor
  · intro hspoils
    obtain ⟨l, hl, htitle, -⟩ := h.listed
    obtain ⟨m, hm, e, he⟩ := hspoils.fails hl
    obtain rfl := Option.some.inj hm
    obtain ⟨name, clips, tracks, stamp⟩ := l
    cases htitle with
    | label _ _ =>
        rw [listed_of_label _ rfl] at he
        cases he
    | bytes hmap hname hdecode hdecoded => exact ⟨_, .bytes hmap hname hdecode hdecoded⟩
    | unnamed _ _ _ => cases he
  · rintro ⟨bs, htitle⟩
    obtain ⟨fields, hmap, hname⟩ := htitle.lookup_of_bytes
    exact .name hmap hname rfl

theorem Accepts.entry (h : Accepts w file a) (hspoils : ¬Spoils w file) :
    ∃ title, TitledAs w file a (.ofLabel title) ∧
      entryOf? w file = some (Tool.summary { a with name := title }) := by
  obtain ⟨⟨name, clips, tracks, stamp⟩, hl, htitle, rfl, rfl⟩ := h.listed
  have hlisting := listing?_eq_some_iff.2 hl
  cases htitle with
  | label hmap hname =>
      refine ⟨a.name, .label hmap hname, ?_⟩
      rw [entryOf?, hlisting, Option.bind_some, listed_of_label _ rfl]
      rfl
  | bytes hmap hname hdecode hdecoded =>
      exact absurd (h.spoils_iff.2 ⟨_, .bytes hmap hname hdecode hdecoded⟩) hspoils
  | unnamed hmap hname hdefault =>
      exact ⟨stem file, .unnamed hmap hname hdefault, by rw [entryOf?, hlisting]; rfl⟩

/-- A file that was written for an arrangement is accepted as it, and makes no list fail. -/
theorem accepts_of_written {stamp : Nat}
    (hread : readFile w file = .ok (.text (Yaml.write a.datum), stamp)) :
    Accepts w file a ∧ ¬Spoils w file := by
  have haccepts : Accepts w file a := accepts_iff.2 ⟨_, stamp, hread, fromDocument_write a _⟩
  have hmap : HoldsMap w file a.entries := ⟨_, stamp, _, hread, readDocument_write a, rfl⟩
  refine ⟨haccepts, fun hspoils => ?_⟩
  obtain ⟨bs, htitle⟩ := haccepts.spoils_iff.1 hspoils
  obtain ⟨fields, hbytes, hname⟩ := htitle.lookup_of_bytes
  rw [hbytes.unique hmap] at hname
  cases hlabel : a.name <;> simp [Arrangement.entries, Datum.ofLabel, hlabel] at hname

/-- A document that has clips and nothing else is read as it was written. -/
theorem readDocument_clips {d : Datum} (hd : Yaml.ValueReadsBack 0 d) :
    readDocument (.text (Yaml.write (.record [("clips", d)]))) =
      .ok (.map [(.text "clips", d)]) := by
  have hfields : ∀ f ∈ [("clips", d)], Yaml.FieldReadsBack 0 f := by
    intro f hf
    obtain rfl := List.mem_singleton.1 hf
    exact fieldReadsBack (by decide) hd
  obtain ⟨hprintable, hread⟩ := Yaml.read_write_record hfields (by simp)
  rw [readDocument_of_printable hprintable, hread]
  rfl

/-! ## Names in a list -/

/-- Without a working copy, a name gives the arrangement that its file is accepted as. -/
theorem result_get?_eq_some_iff (hheld : w.workingCopy? name = none) :
    (get? name w).2.result = .ok (some a) ↔ Accepts w (fileName name) a := by
  rw [accepts_iff]
  constructor
  · intro hget
    have hruns : Action.Runs (fun _ => True) (get? name) w _ := get?_runs trivial
    obtain ⟨hnone, -⟩ | ⟨b, hsome, hasked⟩ := hruns.answers _ hget
    · cases hnone
    · obtain rfl := Option.some.inj hsome
      generalize (get? name w).1 = v at hasked
      cases hasked with
      | held hcopy =>
          rw [hheld] at hcopy
          cases hcopy
      | loaded _ hread hdocument => exact ⟨_, _, hread, hdocument⟩
  · rintro ⟨content, stamp, hread, hdocument⟩
    have hget := get?_of_read hheld hread
    rw [show fromDocument (pathOf w name) content = .ok a from hdocument] at hget
    rw [hget]
    rfl

theorem toList_stem {front : List Char} (h : file.toList = front ++ fileSuffix.toList) :
    (stem file).toList = front ++ ".arrangement".toList := by
  have hreverse : file.toList.reverse = "lmay.tnemegnarra.".toList ++ front.reverse := by
    rw [h, List.reverse_append]
    rfl
  have hlast : file.toList.getLast? = some 'l' := by
    rw [h, List.getLast?_append]
    rfl
  have hfront : (file.toList.reverse.dropWhile (· != '.')).drop 1 =
      "tnemegnarra.".toList ++ front.reverse := by
    rw [hreverse]
    rfl
  unfold stem
  simp only [hfront, hlast]
  simp

/-- A file is never that of its own stem: the stem of a file of an arrangement keeps a part of the
ending. -/
theorem fileName_stem_ne (file : String) : fileName (stem file) ≠ file := by
  intro h
  have hfile : file.toList = (stem file).toList.map fileNameChar ++ fileSuffix.toList := by
    rw [← toList_fileName, h]
  have hlength := congrArg List.length hfile
  have hstem := congrArg List.length (toList_stem hfile)
  simp only [List.length_append, List.length_map] at hlength hstem
  have hsuffix : fileSuffix.toList.length = 17 := by decide
  have hpart : ".arrangement".toList.length = 12 := by decide
  omega

end Library

end Arranger
