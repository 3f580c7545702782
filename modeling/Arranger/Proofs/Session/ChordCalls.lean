import Arranger.Proofs.Notation.Events
import Arranger.Proofs.Session.Invariant

/-!
# Chords in tokens and in calls

A chord is written as one token, or its note and its type are named apart, as a call names them.
Both have the same notes, or both are refused, because a note would be out of range.
-/

namespace Arranger.Session

open Chord (IsSplit)
open Text (strip)

/-! ## Calls -/

/-- The arguments ask for the root position of a chord. -/
structure AsksForChord (args : Arguments) (root type : String) : Prop where
  root : args.get "root" = .text root
  type : args.get "chord_type" = .text type
  inversion : args.getOr "inversion" (.int 0) = .int 0

/-- A reply of success with the numbers of a group. -/
def TellsNumbers (reply : Datum) (numbers : List Nat) : Prop :=
  ∃ entries, reply = .map entries ∧
    Datum.lookup entries "status" = some (.text "success") ∧
      Datum.lookup entries "midi" = some (Tool.eventDatum (some numbers))

/-- A reply tells of the numbers that are read, or both fail because of the range. -/
def AgreesWith (reply : Datum) (read : Except TheoryError (Option (List Nat))) : Prop :=
  (∃ numbers, read = .ok (some numbers) ∧ TellsNumbers reply numbers) ∨
    ∃ cause, read = .error (.range cause) ∧ reply = Reply.error (.theory (.range cause))

variable {args : Arguments} {u v : String} {c : Chord}

/-- The call voices the chord and tells of its notes. -/
theorem exists_chordVoicing_eq (hasks : AsksForChord args u v) (hroot : Note.parse u = .ok c.root)
    (htype : ChordType.parse v = .ok c.type) (w : Workspace) :
    ∃ reply : List Note → Datum,
      Tool.chordVoicing args w = (reply <$> Tool.theory (c.voicing 0)) w ∧
        ∀ notes, TellsNumbers (reply notes) (notes.map (·.midi.val)) := by
  have hrootToken : args.token "root" w = (w, .value u) := by
    simp [Arguments.token, hasks.root, Arguments.tokenOf]
  have hrootNote : Tool.theory (Note.parse u) w = (w, .value c.root) := by
    simp [Tool.theory, hroot, Except.mapError]
  have htypeName : Action.ofExcept (Arguments.eventOf (args.get "chord_type")) w =
      (w, .value v) := by
    simp [hasks.type, Arguments.eventOf]
  have htypeRead : Tool.theory (ChordType.parse v) w = (w, .value c.type) := by
    simp [Tool.theory, htype, Except.mapError]
  have hinversion : args.integerOr "inversion" 0 w = (w, .value 0) := by
    simp [Arguments.integerOr, hasks.inversion, Arguments.integerOf]
  unfold Tool.chordVoicing
  rw [Action.bind_of_value hrootToken, Action.bind_of_value hrootNote,
    Action.bind_of_value htypeName, Action.bind_of_value htypeRead,
    Action.bind_of_value hinversion]
  refine ⟨_, rfl, fun notes => ⟨_, rfl, ?_, ?_⟩⟩
  · simp
  · simp [Tool.eventDatum, Reply.count]

/-- What a call for a chord answers is what the token of the chord is read as. -/
theorem agreesWith_event_append (hroot : Note.parse u = .ok c.root)
    (htype : ChordType.parse v = .ok c.type) (hasks : AsksForChord args u v) (s : State) :
    AgreesWith ((Step.call "sclang_chord_voicing" args).run s).2.value
      (Notation.event (u ++ v)) := by
  have hparse : Chord.parse (String.ofList (strip (u ++ v).toList)) = .ok c := by
    rw [Chord.parse_strip, Chord.parse_append hroot htype]
  have hevent := Notation.event_of_chord hparse
  obtain ⟨reply, hcall, hreply⟩ := exists_chordVoicing_eq hasks hroot htype (tick s.workspace)
  cases hvoicing : c.voicing 0 with
  | ok notes =>
      left
      have hvalue : Tool.chordVoicing args (tick s.workspace) =
          (tick s.workspace, .value (reply notes)) := by
        rw [hcall, Tool.theory, hvoicing]
        rfl
      have hanswer : ((Step.call "sclang_chord_voicing" args).run s).2.value = reply notes :=
        value_of_ok (x := Tool.chordVoicing args) (congrArg (·.2.result) hvalue)
      rw [hvoicing] at hevent
      exact ⟨_, hevent, hanswer ▸ hreply notes⟩
  | error cause =>
      right
      obtain ⟨cause, rfl⟩ := c.failsInRange_voicing 0 _ hvoicing
      have hfail : Tool.chordVoicing args (tick s.workspace) =
          (tick s.workspace, .fail (.theory (.range cause))) := by
        rw [hcall, Tool.theory, hvoicing]
        rfl
      rw [hvoicing] at hevent
      exact ⟨cause, hevent,
        value_of_error (x := Tool.chordVoicing args) (congrArg (·.2.result) hfail)⟩

/-! ## Chord tokens -/

theorem chord_eq_parse_append (hroot : Note.parse u = .ok c.root)
    (htype : ChordType.parse v = .ok c.type) :
    Notation.chord u (some v) = Chord.parse (u ++ v) := by
  have hchord : Notation.chord u (some v) = .ok c := by
    dsimp only [Notation.chord]
    rw [htype, hroot]
    rfl
  rw [hchord, Chord.parse_append hroot htype]

/-- A chord token is read if it is the token of a note with the name of a chord type behind it, and
in one way only.  For a note and a chord type that are read apart, the chord of both is read from
their names together, and what these are read as is what a call for the chord answers. -/
theorem chord_token_readings (token u v : String) :
    (∀ c, Chord.parse token = .ok c ↔ ∃ u v, IsSplit (strip token.toList) u v c) ∧
    (∀ u v c, IsSplit (strip token.toList) u v c →
      Note.parse (String.ofList u) = .ok c.root ∧ ChordType.parse (String.ofList v) = .ok c.type ∧
        ∀ u' v' c', IsSplit (strip token.toList) u' v' c' → u = u' ∧ v = v') ∧
    ∀ c : Chord, Note.parse u = .ok c.root → ChordType.parse v = .ok c.type →
      Notation.chord u (some v) = Chord.parse (u ++ v) ∧
        ∀ args, AsksForChord args u v → ∀ s,
          AgreesWith ((Step.call "sclang_chord_voicing" args).run s).2.value
            (Notation.event (u ++ v)) := by
  refine ⟨fun c => Chord.parse_eq_ok_iff, ?_, ?_⟩
  · intro u v c h
    exact ⟨h.root, h.type, fun u' v' c' h' => h.unique h'⟩
  · intro c hroot htype
    exact ⟨chord_eq_parse_append hroot htype,
      fun args hasks s => agreesWith_event_append hroot htype hasks s⟩

/-- A flat note, and a type between blanks. -/
def spacedArguments : Arguments :=
  ⟨[(.text "root", .text "Eb4"), (.text "chord_type", .text " min7\n"),
    (.text "inversion", .int 0)]⟩

theorem asksForChord_spacedArguments : AsksForChord spacedArguments "Eb4" " min7\n" :=
  ⟨by rfl, by rfl, by rfl⟩

theorem chord_token_readings_spacedArguments :
    (∃ u v, IsSplit (strip "Eb4 min7\n".toList) u v ⟨Note.ofPitch 63, .minorSeventh⟩) ∧
      TellsNumbers ((Step.call "sclang_chord_voicing" spacedArguments).run (start "d")).2.value
        [63, 66, 70, 73] := by
  obtain ⟨hread, -, hjoined⟩ := chord_token_readings "Eb4 min7\n" "Eb4" " min7\n"
  refine ⟨(hread _).1 (by decide +kernel), ?_⟩
  obtain ⟨-, hcall⟩ :=
    hjoined ⟨Note.ofPitch 63, .minorSeventh⟩ (by decide +kernel) (by decide +kernel)
  have hevent : Notation.event ("Eb4" ++ " min7\n") = .ok (some [63, 66, 70, 73]) := by
    decide +kernel
  obtain ⟨numbers, hnumbers, htells⟩ | ⟨cause, hcause, -⟩ :=
    hcall _ asksForChord_spacedArguments (start "d")
  · rw [hevent, Except.ok.injEq, Option.some.injEq] at hnumbers
    exact hnumbers ▸ htells
  · rw [hevent] at hcause
    cases hcause

end Arranger.Session
