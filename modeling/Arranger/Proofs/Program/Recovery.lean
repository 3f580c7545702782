import Arranger.Program
import Arranger.Proofs.Decimal.Written
import Arranger.Proofs.Text.Delimited

/-!
# Recovering an arrangement from its program

The program of an arrangement determines the clips and the tracks that it was compiled from, as
long as names are words and there are no placeholders.  A definition is read from left to right:
every name, number and list in it is followed by a character that it cannot hold, and the first
character behind a definition tells whether another one follows.
-/

namespace Arranger

namespace Text

/-- The characters of words: letters and digits of ASCII and underscores. -/
def isWordChar (c : Char) : Bool := isAsciiDigit c || isLetter c || c = '_'

def IsWord (s : String) : Prop := ∀ c ∈ s.toList, isWordChar c

instance : DecidablePred IsWord := fun s =>
  decidable_of_iff (s.toList.all isWordChar = true) List.all_eq_true

end Text

open Text (IsWord isWordChar IsWordOf run_append_inj flatMap_append_inj intercalate_append_inj)

namespace Clip

/-- A clip that a program can define in full, under names that are words. -/
def IsPlain : Clip → Prop
  | instrument c => IsWord c.name ∧ IsWord c.instrument ∧ c.notes.length = c.durations.length
  | empty c => IsWord c.name
  | file _ => False

instance : DecidablePred IsPlain
  | instrument c => inferInstanceAs
      (Decidable (IsWord c.name ∧ IsWord c.instrument ∧ c.notes.length = c.durations.length))
  | empty c => inferInstanceAs (Decidable (IsWord c.name))
  | file _ => inferInstanceAs (Decidable False)

end Clip

/-- A reference that is a word, and so not broken. -/
def Label.IsWord : Label → Prop
  | text s => Text.IsWord s
  | broken _ => False

instance : DecidablePred Label.IsWord
  | .text s => inferInstanceAs (Decidable (IsWord s))
  | .broken _ => inferInstanceAs (Decidable False)

namespace Track

def IsPlain (t : Track) : Prop := IsWord t.name ∧ ∀ ref ∈ t.clips, ref.IsWord

instance : DecidablePred IsPlain := fun t =>
  inferInstanceAs (Decidable (IsWord t.name ∧ ∀ ref ∈ t.clips, ref.IsWord))

/-- The references that are no broken texts. -/
def words (t : Track) : List String := t.clips.filterMap Label.text?

variable {t : Track}

theorem isWord_of_mem_words (ht : t.IsPlain) {s : String} (hs : s ∈ t.words) : IsWord s := by
  obtain ⟨ref, href, htext⟩ := List.mem_filterMap.1 hs
  have hword := ht.2 ref href
  cases ref with
  | text s' => exact Option.some.inj htext ▸ hword
  | broken b => exact hword.elim

/-- A plain track refers to nothing else. -/
theorem map_text_words (ht : t.IsPlain) : t.words.map .text = t.clips := by
  have hwords : ∀ refs : List Label, (∀ ref ∈ refs, ref.IsWord) →
      (refs.filterMap Label.text?).map .text = refs := by
    intro refs hrefs
    induction refs with
    | nil => rfl
    | cons ref rest ih =>
        rw [List.forall_mem_cons] at hrefs
        cases ref with
        | text s => simpa [Label.text?] using ih hrefs.2
        | broken b => exact hrefs.1.elim
  exact hwords t.clips ht.2

end Track

namespace Arrangement

structure IsPlain (a : Arrangement) : Prop where
  clips : ∀ c ∈ a.clips, c.IsPlain
  tracks : ∀ t ∈ a.tracks, t.IsPlain

end Arrangement

namespace Program

/-- What a program tells of a clip: everything, but of its durations only how they are written. -/
inductive Definition where
  | instrument (name instrument : String) (notes : List Group) (durations : List String)
  | empty (name duration : String)
  | file (name path : String)
  deriving DecidableEq

def Definition.of : Clip → Definition
  | .instrument c => .instrument c.name c.instrument c.notes (c.durations.map number)
  | .empty c => .empty c.name (number c.duration)
  | .file c => .file c.name c.path

/-! ## Words, numbers and groups -/

/-- No number, pitch or rest holds one of the characters that end them. -/
def IsAtomChar (c : Char) : Prop := c ≠ ',' ∧ c ≠ ']' ∧ c ≠ ')'

theorem isAtomChar_of_isNumeralChar {c : Char} (h : Decimal.IsNumeralChar c) : IsAtomChar c := by
  refine ⟨?_, ?_, ?_⟩
  all_goals
    rintro rfl
    rcases h with h | h | h | h | h
    all_goals exact absurd h (by decide)

theorem isWordOf_number (x : Float) : IsWordOf IsAtomChar (number x).toList := by
  rcases Decimal.Layout.write_cases Decimal.plain x with hword | ⟨hne, hchars⟩
  · have hforms : number x ∈ ["nan", "inf", "-inf"] := hword
    simp only [List.mem_cons, List.not_mem_nil, or_false] at hforms
    rcases hforms with h | h | h <;> rw [h] <;> simp [IsWordOf, IsAtomChar]
  · refine ⟨?_, fun c hc => isAtomChar_of_isNumeralChar (hchars c hc)⟩
    intro hnil
    exact hne (String.toList_inj.1 hnil)

theorem number_append_inj
    {x y : Float} {r s : List Char}
    (h : (number x).toList ++ ')' :: r = (number y).toList ++ ')' :: s) :
    number x = number y ∧ r = s := by
  obtain ⟨heq, -, hrs⟩ :=
    run_append_inj (isWordOf_number x).2 (isWordOf_number y).2 (by simp [IsAtomChar])
      (by simp [IsAtomChar]) h
  exact ⟨String.toList_inj.1 heq, hrs⟩

theorem word_append_inj
    {m n : String} (hm : IsWord m) (hn : IsWord n)
    {stop : Char} (hstop : ¬ isWordChar stop) {r s : List Char}
    (h : m.toList ++ stop :: r = n.toList ++ stop :: s) :
    m = n ∧ r = s := by
  obtain ⟨heq, -, hrs⟩ := run_append_inj hm hn hstop hstop h
  exact ⟨String.toList_inj.1 heq, hrs⟩

/-- What a word begins does not begin with a character outside of words, unless that one ends the
word. -/
theorem word_append_head
    {n : String} (hn : IsWord n) {sep stop : Char} (hstop : ¬ isWordChar stop) (hne : sep ≠ stop)
    (r : List Char) :
    ∃ c rest, n.toList ++ sep :: r = c :: rest ∧ c ≠ stop := by
  cases hchars : n.toList with
  | nil => exact ⟨sep, r, rfl, hne⟩
  | cons c rest =>
      refine ⟨c, rest ++ sep :: r, rfl, ?_⟩
      rintro rfl
      exact hstop (hn c (by simp [hchars]))

theorem toList_toString_pitch (p : Pitch) :
    (toString (p.val : Int)).toList = Nat.toDigits 10 p.val := by
  have hcast : toString ((p.val : Nat) : Int) = p.val.repr := rfl
  rw [hcast, Nat.toList_repr]

theorem isWordOf_of_mem_pitches
    (pitches : List Pitch) {u : List Char}
    (h : u ∈ pitches.map fun p => Nat.toDigits 10 p.val) :
    IsWordOf IsAtomChar u := by
  obtain ⟨p, -, rfl⟩ := List.mem_map.1 h
  refine ⟨Nat.toDigits_ne_nil, ?_⟩
  intro c hc
  exact isAtomChar_of_isNumeralChar (Decimal.isNumeralChar_of_mem_toDigits hc)

theorem map_toDigits_inj
    {ps qs : List Pitch}
    (h : ps.map (fun p => Nat.toDigits 10 p.val) = qs.map fun q => Nat.toDigits 10 q.val) :
    ps = qs := by
  refine (List.map_inj_right ?_).1 h
  intro p q hpq
  have hval := congrArg (Nat.ofDigitChars 10 · 0) hpq
  simp only [Nat.ofDigitChars_ten_toDigits] at hval
  exact Fin.ext hval

theorem toList_group (pitches : List Pitch) :
    (group (pitches.map fun p => (p.val : Int))).toList =
      '[' :: ([',', ' '].intercalate (pitches.map fun p => Nat.toDigits 10 p.val) ++ [']']) := by
  have hmap : pitches.map ((String.toList ∘ toString) ∘ fun p => (p.val : Int)) =
      pitches.map fun p => Nat.toDigits 10 p.val :=
    List.map_congr_left fun p _ => toList_toString_pitch p
  unfold group
  rw [String.toList_append, String.toList_append, String.toList_intercalate, List.map_map,
    List.map_map, hmap]
  rfl

theorem groupElement_head (g : Group) :
    ∃ c rest, (groupElement (groupNumbers g)).toList = c :: rest ∧ c ≠ ']' := by
  cases g with
  | none => exact ⟨'n', "ote:Rest(),".toList, rfl, by decide⟩
  | some pitches =>
      simp only [groupNumbers, groupElement, Option.map_some, String.toList_append, toList_group]
      exact ⟨'[', _, rfl, by decide⟩

theorem groupElement_append_inj
    {g g' : Group} {r s : List Char}
    (h : (groupElement (groupNumbers g)).toList ++ r =
      (groupElement (groupNumbers g')).toList ++ s) :
    g = g' ∧ r = s := by
  cases g with
  | none =>
      cases g' with
      | none => exact ⟨rfl, List.append_cancel_left h⟩
      | some qs =>
          simp only [groupNumbers, groupElement, Option.map_some, Option.map_none,
            String.toList_append, toList_group] at h
          simp [rest] at h
  | some ps =>
      cases g' with
      | none =>
          simp only [groupNumbers, groupElement, Option.map_some, Option.map_none,
            String.toList_append, toList_group] at h
          simp [rest] at h
      | some qs =>
          simp only [groupNumbers, groupElement, Option.map_some, String.toList_append,
            toList_group, List.cons_append, List.append_assoc, List.cons.injEq, true_and,
            List.nil_append] at h
          obtain ⟨hdigits, htail⟩ :=
            intercalate_append_inj (p := IsAtomChar) (by simp [IsAtomChar])
              (by simp [IsAtomChar]) (by decide) (fun _ hu => isWordOf_of_mem_pitches ps hu)
              (fun _ hv => isWordOf_of_mem_pitches qs hv) h
          exact ⟨by rw [map_toDigits_inj hdigits], List.append_cancel_left htail⟩

/-! ## Definitions of clips -/

/-- The definition of a clip, as it is written when placeholders are allowed. -/
def clipText : Clip → String
  | .instrument c => instrumentClip c
  | .empty c => emptyClip c
  | .file c => placeholder c

theorem clip_of_isPlain (allowStubs : Bool) {c : Clip} (hc : c.IsPlain) :
    clip allowStubs c = .value (clipText c) := by
  cases c with
  | instrument c => simp [clip, clipText, InstrumentClip.lengthsAgree, hc.2.2]
  | empty c => rfl
  | file c => exact hc.elim

theorem clips_of_isPlain
    (allowStubs : Bool) {cs : List Clip} (hcs : ∀ c ∈ cs, c.IsPlain) :
    clips allowStubs cs = .value (String.join (cs.map fun c => clipText c ++ "\n")) := by
  induction cs with
  | nil => rfl
  | cons c cs ih =>
      rw [clips, clip_of_isPlain allowStubs (hcs c (by simp)), Outcome.value_andThen,
        ih fun d hd => hcs d (by simp [hd]), Outcome.value_andThen]
      simp

theorem toList_instrumentClip (c : InstrumentClip) :
    (instrumentClip c).toList = c.name.val.toList ++ ' ' :: '=' :: ' ' :: 'P' ::
      ("bind(\n    \\instrument, \\".toList ++ (c.instrument.val.toList ++ ',' ::
        ("\n    \\dur, Pseq([".toList ++ ([',', ' '].intercalate
          (c.durations.map fun x => (number x).toList) ++ ']' ::
          ("),\n    \\midinote, Pseq([".toList ++ ((c.notes.flatMap fun g =>
            (groupElement (groupNumbers g)).toList) ++ ']' :: "),\n);\n".toList)))))) := by
  simp [instrumentClip, durations, groups, List.flatMap_map, Function.comp_def]

theorem toList_emptyClip (c : EmptyClip) :
    (emptyClip c).toList = c.name.val.toList ++ ' ' :: '=' :: ' ' :: '(' ::
      ("note:Rest(), dur:".toList ++ ((number c.duration).toList ++ ')' :: [';', '\n'])) := by
  simp [emptyClip]

theorem instrumentClip_append_inj
    {c d : InstrumentClip} (hc : (Clip.instrument c).IsPlain) (hd : (Clip.instrument d).IsPlain)
    {r s : List Char}
    (h : (instrumentClip c).toList ++ r = (instrumentClip d).toList ++ s) :
    Definition.of (.instrument c) = Definition.of (.instrument d) ∧ r = s := by
  simp only [toList_instrumentClip, List.append_assoc, List.cons_append] at h
  obtain ⟨hname, hbody⟩ := word_append_inj hc.1 hd.1 (by decide) h
  simp only [List.cons.injEq, true_and] at hbody
  obtain ⟨hinstrument, hlists⟩ :=
    word_append_inj hc.2.1 hd.2.1 (by decide) (List.append_cancel_left hbody)
  have hword : ∀ (xs : List Float), ∀ u ∈ xs.map fun x => (number x).toList,
      IsWordOf IsAtomChar u := by
    intro xs u hu
    obtain ⟨x, -, rfl⟩ := List.mem_map.1 hu
    exact isWordOf_number x
  obtain ⟨hdurations, hnotes⟩ :=
    intercalate_append_inj (p := IsAtomChar) (by simp [IsAtomChar]) (by simp [IsAtomChar])
      (by decide) (hword c.durations) (hword d.durations) (List.append_cancel_left hlists)
  obtain ⟨hgroups, htail⟩ :=
    flatMap_append_inj (P := fun _ => True) (f := id)
      (fun g _ => groupElement_head g)
      (fun _ _ _ _ _ _ hg => groupElement_append_inj hg)
      (fun _ _ => trivial) (fun _ _ => trivial) (List.append_cancel_left hnotes)
  have htexts : c.durations.map number = d.durations.map number := by
    have hofList := congrArg (List.map String.ofList) hdurations
    simpa [Function.comp_def] using hofList
  refine ⟨?_, List.append_cancel_left htail⟩
  simp only [List.map_id_fun, id_eq] at hgroups
  simp only [Definition.of, hname, hinstrument, hgroups, htexts]

theorem emptyClip_append_inj
    {c d : EmptyClip} (hc : (Clip.empty c).IsPlain) (hd : (Clip.empty d).IsPlain)
    {r s : List Char} (h : (emptyClip c).toList ++ r = (emptyClip d).toList ++ s) :
    Definition.of (.empty c) = Definition.of (.empty d) ∧ r = s := by
  simp only [toList_emptyClip, List.append_assoc, List.cons_append] at h
  obtain ⟨hname, hbody⟩ := word_append_inj hc hd (by decide) h
  simp only [List.cons.injEq, true_and] at hbody
  obtain ⟨hduration, htail⟩ := number_append_inj (List.append_cancel_left hbody)
  refine ⟨?_, by simpa using htail⟩
  simp only [Definition.of, hname, hduration]

/-- The definition of an instrument and that of a silence differ behind the name. -/
theorem instrumentClip_append_ne
    {c : InstrumentClip} {d : EmptyClip}
    (hc : (Clip.instrument c).IsPlain) (hd : (Clip.empty d).IsPlain) (r s : List Char) :
    (instrumentClip c).toList ++ r ≠ (emptyClip d).toList ++ s := by
  intro h
  simp only [toList_instrumentClip, toList_emptyClip, List.append_assoc, List.cons_append] at h
  obtain ⟨-, hbody⟩ := word_append_inj hc.1 hd (by decide) h
  simp at hbody

theorem clipText_append_inj
    {c d : Clip} (hc : c.IsPlain) (hd : d.IsPlain) {r s : List Char}
    (h : (clipText c).toList ++ r = (clipText d).toList ++ s) :
    Definition.of c = Definition.of d ∧ r = s := by
  cases c with
  | file c => exact hc.elim
  | instrument c =>
      cases d with
      | file d => exact hd.elim
      | instrument d => exact instrumentClip_append_inj hc hd h
      | empty d => exact absurd h (instrumentClip_append_ne hc hd r s)
  | empty c =>
      cases d with
      | file d => exact hd.elim
      | instrument d => exact absurd h.symm (instrumentClip_append_ne hd hc s r)
      | empty d => exact emptyClip_append_inj hc hd h

/-! ## Tracks and whole programs -/

/-- A list of names none of which is broken. -/
def wordList (names : List String) : String :=
  "[" ++ String.join (names.map (· ++ ",")) ++ "]"

theorem nameList_map_text (names : List String) :
    nameList (names.map .text) = .text (wordList names) := by
  rw [nameList, List.map_map, wordList, ← Label.text_append, ← Label.text_append,
    ← Label.join_map_text, List.map_map]
  rfl

theorem toList_wordList (names : List String) :
    (wordList names).toList = '[' :: ((names.flatMap fun n => n.toList ++ [',']) ++ [']']) := by
  simp [wordList, List.flatMap_map]

theorem wordList_append_inj
    {ms ns : List String} (hms : ∀ m ∈ ms, IsWord m) (hns : ∀ n ∈ ns, IsWord n)
    {r s : List Char} (h : (wordList ms).toList ++ r = (wordList ns).toList ++ s) :
    ms = ns ∧ r = s := by
  simp only [toList_wordList, List.cons_append, List.append_assoc, List.cons.injEq, true_and,
    List.nil_append] at h
  obtain ⟨hnames, htail⟩ :=
    flatMap_append_inj (P := IsWord) (f := id)
      (fun n hn => word_append_head hn (by decide) (by decide) [])
      (by
        intro m n r s hm hn heq
        simp only [List.append_assoc, List.cons_append, List.nil_append] at heq
        exact word_append_inj hm hn (by decide) heq)
      hms hns h
  exact ⟨by simpa using hnames, htail⟩

/-- The definition of a plain track. -/
def trackText (t : Track) : String :=
  t.name ++ " = Pseq(" ++ wordList t.words ++ ").do(\x7barg currClip; currClip.play\x7d);\n"

theorem track_of_isPlain {t : Track} (ht : t.IsPlain) : track t = .text (trackText t) := by
  rw [track, ← Track.map_text_words ht, nameList_map_text]
  rfl

theorem tracks_of_isPlain {ts : List Track} (hts : ∀ t ∈ ts, t.IsPlain) :
    tracks ts = .text (String.join (ts.map fun t => trackText t ++ "\n")) := by
  have htexts : ts.map (fun t => track t ++ ("\n" : Label)) =
      (ts.map fun t => trackText t ++ "\n").map .text := by
    rw [List.map_map]
    refine List.map_congr_left fun t ht => ?_
    rw [track_of_isPlain (hts t ht)]
    rfl
  rw [tracks, htexts, Label.join_map_text]

theorem toList_trackText (t : Track) :
    (trackText t).toList = t.name.val.toList ++ ' ' :: ("= Pseq(".toList ++
      ((wordList t.words).toList ++ ").do(\x7barg currClip; currClip.play\x7d);\n".toList)) := by
  simp [trackText]

theorem trackText_append_inj
    {t u : Track} (ht : t.IsPlain) (hu : u.IsPlain) {r s : List Char}
    (h : (trackText t).toList ++ r = (trackText u).toList ++ s) :
    t = u ∧ r = s := by
  simp only [toList_trackText, List.append_assoc, List.cons_append] at h
  obtain ⟨hname, hbody⟩ := word_append_inj ht.1 hu.1 (by decide) h
  obtain ⟨hwords, htail⟩ :=
    wordList_append_inj (fun _ => Track.isWord_of_mem_words ht)
      (fun _ => Track.isWord_of_mem_words hu) (List.append_cancel_left hbody)
  have hclips : t.clips = u.clips := by
    rw [← Track.map_text_words ht, hwords, Track.map_text_words hu]
  refine ⟨?_, List.append_cancel_left htail⟩
  cases t
  cases u
  simp only [Track.mk.injEq]
  exact ⟨Subtype.ext hname, hclips⟩

theorem lineFeed_not_mem_declaration
    {names : List String} (hnames : ∀ n ∈ names, IsWord n) :
    ∀ c ∈ (declaration names).toList, c ≠ '\n' := by
  intro c hc
  unfold declaration at hc
  split at hc
  · simp at hc
  · simp only [String.toList_append, String.toList_intercalate, List.mem_append] at hc
    rcases hc with (hvar | hlist) | hend
    · rintro rfl
      revert hvar
      decide
    · rcases Text.mem_of_mem_intercalate hlist with hcomma | ⟨u, hu, hcu⟩
      · rintro rfl
        revert hcomma
        decide
      · obtain ⟨n, hn, rfl⟩ := List.mem_map.1 hu
        rintro rfl
        exact absurd (hnames n hn '\n' hcu) (by decide)
    · rintro rfl
      revert hend
      decide

theorem isWord_of_mem_names
    {a : Arrangement} (ha : a.IsPlain) {n : String} (hn : n ∈ a.names) : IsWord n := by
  simp only [Arrangement.names, Arrangement.clipNames, Arrangement.trackNames, List.mem_append,
    List.mem_map] at hn
  rcases hn with ⟨c, hc, rfl⟩ | ⟨t, ht, rfl⟩
  · cases c with
    | instrument c => exact (ha.clips _ hc).1
    | empty c => exact ha.clips _ hc
    | file c => exact (ha.clips _ hc).elim
  · exact (ha.tracks t ht).1

/-- The program of a plain arrangement. -/
def plainSource (a : Arrangement) : String :=
  opening a.names (String.join (a.clips.map fun c => clipText c ++ "\n")) ++
    String.join (a.tracks.map fun t => trackText t ++ "\n") ++
    ("\n" ++ wordList a.trackNames ++ ".do(\x7barg currTrack; currTrack.play\x7d)\n)")

theorem source_of_isPlain (allowStubs : Bool) {a : Arrangement} (ha : a.IsPlain) :
    source allowStubs a = .value (.text (plainSource a)) := by
  rw [source, clips_of_isPlain allowStubs ha.clips, Outcome.value_andThen, assemble,
    tracks_of_isPlain ha.tracks, closing, nameList_map_text]
  rfl

theorem toList_plainSource (a : Arrangement) :
    (plainSource a).toList = synthesizer.toList ++ ("\n(\n".toList ++
      ((declaration a.names).toList ++ '\n' ::
        ((a.clips.flatMap fun c => (clipText c).toList ++ ['\n']) ++ '\n' ::
          ((a.tracks.flatMap fun t => (trackText t).toList ++ ['\n']) ++ '\n' ::
            ((wordList a.trackNames).toList ++
              ".do(\x7barg currTrack; currTrack.play\x7d)\n)".toList))))) := by
  simp [plainSource, opening, List.flatMap_map]

theorem clipText_head {c : Clip} (hc : c.IsPlain) :
    ∃ first rest, (clipText c).toList ++ ['\n'] = first :: rest ∧ first ≠ '\n' := by
  cases c with
  | instrument c =>
      simp only [clipText, toList_instrumentClip, List.append_assoc, List.cons_append]
      exact word_append_head hc.1 (by decide) (by decide) _
  | empty c =>
      simp only [clipText, toList_emptyClip, List.append_assoc, List.cons_append]
      exact word_append_head hc (by decide) (by decide) _
  | file c => exact hc.elim

theorem trackText_head {t : Track} (ht : t.IsPlain) :
    ∃ first rest, (trackText t).toList ++ ['\n'] = first :: rest ∧ first ≠ '\n' := by
  simp only [toList_trackText, List.append_assoc, List.cons_append]
  exact word_append_head ht.1 (by decide) (by decide) _

theorem plainSource_inj
    {a b : Arrangement} (ha : a.IsPlain) (hb : b.IsPlain) (h : plainSource a = plainSource b) :
    a.clips.map Definition.of = b.clips.map Definition.of ∧ a.tracks = b.tracks := by
  have hchars := congrArg String.toList h
  simp only [toList_plainSource] at hchars
  have hlines := List.append_cancel_left (List.append_cancel_left hchars)
  obtain ⟨-, -, hclips⟩ :=
    run_append_inj (p := (· ≠ '\n'))
      (lineFeed_not_mem_declaration fun n hn => isWord_of_mem_names ha hn)
      (lineFeed_not_mem_declaration fun n hn => isWord_of_mem_names hb hn)
      (by simp) (by simp) hlines
  obtain ⟨hdefinitions, htracks⟩ :=
    flatMap_append_inj (P := Clip.IsPlain) (fun c hc => clipText_head hc)
      (by
        intro c d r s hc hd heq
        simp only [List.append_assoc] at heq
        obtain ⟨hdefinition, htail⟩ := clipText_append_inj hc hd heq
        exact ⟨hdefinition, List.append_cancel_left htail⟩)
      ha.clips hb.clips hclips
  obtain ⟨htrackList, -⟩ :=
    flatMap_append_inj (P := Track.IsPlain) (f := id) (fun t ht => trackText_head ht)
      (by
        intro t u r s ht hu heq
        simp only [List.append_assoc] at heq
        obtain ⟨htrack, htail⟩ := trackText_append_inj ht hu heq
        exact ⟨htrack, List.append_cancel_left htail⟩)
      ha.tracks hb.tracks htracks
  exact ⟨hdefinitions, by simpa using htrackList⟩

theorem clipText_congr {c d : Clip} (h : Definition.of c = Definition.of d) :
    clipText c ++ "\n" = clipText d ++ "\n" ∧ c.name = d.name := by
  cases c with
  | instrument c =>
      cases d with
      | instrument d =>
          simp only [Definition.of, Definition.instrument.injEq] at h
          obtain ⟨hname, hinstrument, hnotes, hdurations⟩ := h
          simp only [clipText, instrumentClip, durations, Clip.name, hname, hinstrument, hnotes,
            hdurations, and_self]
      | empty d => simp [Definition.of] at h
      | file d => simp [Definition.of] at h
  | empty c =>
      cases d with
      | instrument d => simp [Definition.of] at h
      | empty d =>
          simp only [Definition.of, Definition.empty.injEq] at h
          simp only [clipText, emptyClip, Clip.name, h.1, h.2, and_self]
      | file d => simp [Definition.of] at h
  | file c =>
      cases d with
      | instrument d => simp [Definition.of] at h
      | empty d => simp [Definition.of] at h
      | file d =>
          simp only [Definition.of, Definition.file.injEq] at h
          obtain ⟨hname, hpath⟩ := h
          have htext : placeholder c = placeholder d := by
            unfold placeholder
            rw [hname, hpath]
          exact ⟨congrArg (· ++ "\n") htext, hname⟩

/-- What one function tells apart no better than another, it does not tell apart in lists. -/
theorem map_congr_of_map_eq
    {α β γ : Type} {f : α → β} {g : α → γ} (hfg : ∀ x y, f x = f y → g x = g y)
    {xs ys : List α} (h : xs.map f = ys.map f) :
    xs.map g = ys.map g := by
  induction xs generalizing ys with
  | nil =>
      cases ys with
      | nil => rfl
      | cons y ys => simp at h
  | cons x xs ih =>
      cases ys with
      | nil => simp at h
      | cons y ys =>
          simp only [List.map_cons, List.cons.injEq] at h ⊢
          exact ⟨hfg x y h.1, ih h.2⟩

theorem plainSource_congr
    {a b : Arrangement} (hclips : a.clips.map Definition.of = b.clips.map Definition.of)
    (htracks : a.tracks = b.tracks) :
    plainSource a = plainSource b := by
  have htexts : a.clips.map (fun c => clipText c ++ "\n") =
      b.clips.map fun c => clipText c ++ "\n" :=
    map_congr_of_map_eq (fun c d hcd => (clipText_congr hcd).1) hclips
  have hnames : a.clipNames = b.clipNames :=
    map_congr_of_map_eq (fun c d hcd => (clipText_congr hcd).2) hclips
  simp only [plainSource, opening, Arrangement.names, Arrangement.trackNames, htexts, hnames,
    htracks]

/-- Two arrangements compile to the same program exactly if they have the same clips, as far as
these can be seen, and the same tracks. -/
theorem source_eq_iff
    (allowStubs : Bool) {a b : Arrangement} (ha : a.IsPlain) (hb : b.IsPlain) :
    ∃ programA programB,
      source allowStubs a = .value programA ∧ source allowStubs b = .value programB ∧
        (programA = programB ↔
          a.clips.map Definition.of = b.clips.map Definition.of ∧ a.tracks = b.tracks) := by
  refine ⟨.text (plainSource a), .text (plainSource b), source_of_isPlain allowStubs ha,
    source_of_isPlain allowStubs hb, ?_⟩
  constructor
  · intro heq
    exact plainSource_inj ha hb (Label.text.inj heq)
  · rintro ⟨hclips, htracks⟩
    rw [plainSource_congr hclips htracks]

/-- A clip of one step and a track that plays it twice. -/
def oneStep (g : Group) : Arrangement where
  name := "piece"
  clips := [.instrument ⟨⟨"step_1", by decide⟩, ⟨"sine", by decide⟩, [g], [0.5]⟩,
    .empty ⟨⟨"gap", by decide⟩, 0.25⟩]
  tracks := [⟨⟨"lane", by decide⟩, ["step_1", "step_1"]⟩]

/-- A rest and a group without pitches compile to different programs. -/
theorem source_rest_ne_source_emptyGroup :
    (oneStep none).IsPlain ∧ (oneStep (some [])).IsPlain ∧
      ∃ programA programB,
        source false (oneStep none) = .value programA ∧
          source false (oneStep (some [])) = .value programB ∧ programA ≠ programB := by
  have hrest : (oneStep none).IsPlain := ⟨by decide, by decide⟩
  have hempty : (oneStep (some [])).IsPlain := ⟨by decide, by decide⟩
  obtain ⟨programA, programB, hsourceA, hsourceB, hiff⟩ := source_eq_iff false hrest hempty
  refine ⟨hrest, hempty, programA, programB, hsourceA, hsourceB, ?_⟩
  intro heq
  have hnotes := (hiff.1 heq).1
  simp [oneStep, Definition.of] at hnotes

end Program

end Arranger
