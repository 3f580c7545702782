import Arranger.Proofs.Library.Operations
import Arranger.Workspace.Session
import Mathlib.Data.List.Nodup

/-!
# A store with two levels

The library behaves as a store that keeps for each name at most one working copy and at most one
saved copy.  Making an arrangement gives it a working copy, editing changes the working copy, saving
copies it to the saved ones, and a name without a working copy gets one from its saved copy when it
is asked for.  The files of the workspace and what is read from them do not show.
-/

namespace Arranger.Library

/-! ## Requests -/

inductive Edit where
  | addClip (clip : Clip)
  | removeClip (clip : String)
  | addTrack (track : String) (clips : List Label)
  | appendClip (track : String) (clip : Label)
  | removeTrack (track : String)

/-- What an edit makes of an arrangement. -/
def Edit.result : Edit → Arrangement → Except Fault Arrangement
  | addClip clip, a => .ok (a.addClip clip)
  | removeClip clip, a => orMissing .clip clip (a.removeClip? clip)
  | addTrack track clips, a => do
      return a.addTrack (← Notation.track (.text track) (clips.map .ofLabel))
  | appendClip track clip, a => orMissing .track track (a.appendClip? track clip)
  | removeTrack track, a => orMissing .track track (a.removeTrack? track)

def Edit.action (name : String) : Edit → Action Arrangement
  | addClip clip => Library.addClip name clip
  | removeClip clip => Library.removeClip name clip
  | addTrack track clips =>
      Library.addTrack name (Notation.track (.text track) (clips.map .ofLabel))
  | appendClip track clip => Library.appendClip name track clip
  | removeTrack track => Library.removeTrack name track

theorem Edit.action_eq (name : String) (e : Edit) : e.action name = edit name e.result := by
  cases e <;> rfl

theorem Edit.name_of_result {e : Edit} {a b : Arrangement} (h : e.result a = .ok b) :
    b.name = a.name := by
  cases e with
  | addClip clip =>
      rw [← Except.ok.inj h]
      rfl
  | removeClip clip =>
      cases hremove : Named.remove? Clip.name clip a.clips <;>
        simp [result, orMissing, Arrangement.removeClip?, hremove] at h
      rw [← h]
  | addTrack track clips =>
      cases htrack : Notation.track (.text track) (clips.map .ofLabel) <;>
        simp [result, htrack, bind, Except.bind, pure, Except.pure] at h
      rw [← h]
      rfl
  | appendClip track clip =>
      cases hupdate : Named.update? (·.name.val) track (·.append clip) a.tracks <;>
        simp [result, orMissing, Arrangement.appendClip?, hupdate] at h
      rw [← h]
  | removeTrack track =>
      cases hremove : Named.remove? (·.name.val) track a.tracks <;>
        simp [result, orMissing, Arrangement.removeTrack?, hremove] at h
      rw [← h]

/-- What the library can be asked for; a restart forgets the working copies. -/
inductive Request where
  | create (name : String)
  | get (name : String)
  | edit (name : String) (e : Edit)
  | save (name : String)
  | delete (name : String)
  | duplicate (name newName : String)
  | list
  | restart

/-- The names of arrangements in a request. -/
def Request.names : Request → List String
  | create name => [name]
  | get name => [name]
  | edit name _ => [name]
  | save name => [name]
  | delete name => [name]
  | duplicate name newName => [name, newName]
  | list => []
  | restart => []

inductive Reply where
  | arrangement (a : Arrangement)
  | found (a : Option Arrangement)
  | saved (p : Path)
  | deleted (wasThere : Bool)
  | listed (listings : List Listing)
  | restarted

def Request.action : Request → Action Reply
  | create name => .arrangement <$> Library.create (.text name)
  | get name => .found <$> get? name
  | edit name e => .arrangement <$> e.action name
  | save name => do return .saved (← Library.save (← require name))
  | delete name => .deleted <$> Library.delete name
  | duplicate name newName => .arrangement <$> Library.duplicate name (.text newName)
  | list => do return .listed (← Action.ofOutcome (Library.list (← Action.current)))
  | restart => do
      Action.change Session.forgetCopies
      return .restarted

/-- Serves a request, at a later time than the one before. -/
def serve (w : Workspace) (r : Request) : Workspace × Outcome Reply :=
  r.action { w with stamp := w.stamp + 1 }

def serveAll (w : Workspace) : List Request → Workspace × List (Outcome Reply)
  | [] => (w, [])
  | r :: rest =>
      let (w, outcome) := serve w r
      let (w, outcomes) := serveAll w rest
      (w, outcome :: outcomes)

/-! ## The store -/

/-- A saved copy with the time of its last save. -/
structure Saved where
  name : String
  copy : Arrangement
  time : Nat

/-- What a list tells of a saved copy. -/
def Saved.listing (copy : Saved) : Listing :=
  ⟨.text copy.name, copy.copy.clips.length, copy.copy.tracks.length, copy.time⟩

structure Store where
  working : String → Option Arrangement
  /-- The saved copies in the order of their last saves. -/
  saved : List Saved
  time : Nat
  distinct : (saved.map Saved.name).Nodup

namespace Store

def empty (time : Nat) : Store := ⟨fun _ => none, [], time, List.nodup_nil⟩

def saved? (s : Store) (name : String) : Option Saved := s.saved.find? (·.name = name)

/-- Sets a working copy. -/
def keep (s : Store) (name : String) (a : Arrangement) : Store :=
  { s with working := Function.update s.working name (some a) }

/-- The saved copies of other names. -/
def others (s : Store) (name : String) : List Saved := s.saved.filter (·.name != name)

theorem nodup_others (s : Store) (name : String) : ((s.others name).map Saved.name).Nodup :=
  s.distinct.sublist (List.filter_sublist.map Saved.name)

theorem not_mem_others (s : Store) (name : String) : name ∉ (s.others name).map Saved.name := by
  simp [others]

/-- Sets a saved copy, which is then the last one. -/
def put (s : Store) (copy : Saved) : Store where
  working := s.working
  saved := s.others copy.name ++ [copy]
  time := s.time
  distinct := by
    rw [List.map_append, List.nodup_append]
    refine ⟨s.nodup_others copy.name, by simp, ?_⟩
    intro name hname other hother heq
    simp only [List.map_cons, List.map_nil, List.mem_singleton] at hother
    rw [heq, hother] at hname
    exact s.not_mem_others copy.name hname

/-- Clears both copies of a name. -/
def drop (s : Store) (name : String) : Store where
  working := Function.update s.working name none
  saved := s.others name
  time := s.time
  distinct := s.nodup_others name

/-- The working copy of a name, for which the saved copy is taken if there is none. -/
def fetch (s : Store) (name : String) : Option Arrangement × Store :=
  match s.working name, s.saved? name with
  | some a, _ => (some a, s)
  | none, some copy => (some copy.copy, s.keep name copy.copy)
  | none, none => (none, s)

theorem fetch_saved (s : Store) (name : String) : (s.fetch name).2.saved = s.saved := by
  unfold fetch
  split <;> rfl

theorem fetch_time (s : Store) (name : String) : (s.fetch name).2.time = s.time := by
  unfold fetch
  split <;> rfl

theorem working_of_fetch {s : Store} {name : String} {a : Arrangement}
    (hfetch : (s.fetch name).1 = some a) : (s.fetch name).2.working name = some a := by
  unfold fetch at hfetch ⊢
  cases hheld : s.working name with
  | some b => simpa [hheld] using hfetch
  | none =>
      cases hsaved : s.saved? name with
      | none => simp [hheld, hsaved] at hfetch
      | some copy => simpa [hheld, hsaved, keep] using hfetch

/-- The answer to a request that needs an arrangement. -/
def withCopy (s : Store) (name : String)
    (answer : Arrangement → Store → Store × Except Fault Reply) : Store × Except Fault Reply :=
  match s.fetch name with
  | (some a, s) => answer a s
  | (none, s) => (s, .error (.missing .arrangement name))

def answer (directory : Path) (s : Store) : Request → Store × Except Fault Reply
  | .create name => (s.keep name (.new name), .ok (.arrangement (.new name)))
  | .get name => ((s.fetch name).2, .ok (.found (s.fetch name).1))
  | .edit name e => s.withCopy name fun a s => match e.result a with
      | .ok b => (s.keep name b, .ok (.arrangement b))
      | .error fault => (s, .error fault)
  | .save name => s.withCopy name fun a s =>
      (s.put ⟨name, a, s.time⟩, .ok (.saved (directory.join (fileName name))))
  | .delete name =>
      (s.drop name, .ok (.deleted ((s.working name).isSome || (s.saved? name).isSome)))
  | .duplicate name newName => s.withCopy name fun a s =>
      (s.keep newName { a with name := newName }, .ok (.arrangement { a with name := newName }))
  | .list => (s, .ok (.listed (s.saved.reverse.map Saved.listing)))
  | .restart => ({ s with working := fun _ => none }, .ok .restarted)

/-- Answers a request, at a later time than the one before. -/
def serve (directory : Path) (s : Store) (r : Request) : Store × Except Fault Reply :=
  answer directory { s with time := s.time + 1 } r

def serveAll (directory : Path) (s : Store) : List Request → Store × List (Except Fault Reply)
  | [] => (s, [])
  | r :: rest =>
      let (s, reply) := serve directory s r
      let (s, replies) := serveAll directory s rest
      (s, reply :: replies)

end Store

end Arranger.Library
