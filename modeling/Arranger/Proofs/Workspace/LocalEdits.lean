import Arranger.Proofs.Workspace.Calls

/-!
# Where a call edits

A tool that edits is called with the name of a clip or of a track.  What it makes of an arrangement
differs from it in the place of that name alone.
-/

namespace Arranger

namespace Tool

variable {args : Arguments} {tool key name : String} {pool : Pool} {a b : Arrangement}
  {f : Arrangement → Except Fault Arrangement}

/-- The tools that edit, each with the argument that names what it changes. -/
def editTools : List (String × String × Pool) :=
  [("sclang_add_instrument_clip", "name", .clips), ("sclang_add_empty_clip", "name", .clips),
    ("sclang_add_file_clip", "name", .clips), ("sclang_remove_clip", "name", .clips),
    ("sclang_add_track", "name", .tracks), ("sclang_append_clip", "track", .tracks),
    ("sclang_remove_track", "name", .tracks)]

theorem name_of_emptyClipOf {c : Clip} (hname : args.get "name" = .text name)
    (h : emptyClipOf args = .ok c) : c.name = name := by
  obtain ⟨duration, -, h⟩ := bind_eq_ok_iff.1 h
  obtain ⟨clip, hclip, hc⟩ := bind_eq_ok_iff.1 h
  rw [← Except.ok.inj hc]
  rw [hname] at hclip
  exact Notation.name_of_emptyClip hclip

theorem name_of_fileClipOf {c : Clip} (hname : args.get "name" = .text name)
    (h : fileClipOf args = .ok c) : c.name = name := by
  obtain ⟨clip, hclip, rfl⟩ := map_eq_ok_iff.1 h
  rw [hname] at hclip
  exact Notation.name_of_fileClip hclip

theorem name_of_instrumentClipOf {c : Clip} (hname : args.get "name" = .text name)
    (h : instrumentClipOf args = .ok c) : c.name = name := by
  obtain ⟨clip, hclip, rfl⟩ := map_eq_ok_iff.1 h
  rw [hname] at hclip
  exact name_of_instrumentClip hclip

theorem name_of_trackOf {t : Track} (hname : args.get "name" = .text name)
    (h : trackOf args = .ok t) : t.name.val = name := by
  obtain ⟨clips, -, htrack⟩ := bind_eq_ok_iff.1 h
  rw [hname] at htrack
  exact Notation.name_of_track htrack

theorem differsIn_of_addOrFail
    {clip : Except Fault Clip} (hclip : ∀ c, clip = .ok c → c.name = name)
    (h : addOrFail clip a = .ok b) : a.DiffersIn b name .clips := by
  obtain ⟨c, hc, hb⟩ := bind_eq_ok_iff.1 h
  rw [← Except.ok.inj hb, ← hclip c hc]
  exact a.differsIn_addClip c

theorem exists_edit (args : Arguments) (htool : (tool, key, pool) ∈ editTools) :
    ∃ f, editOf? args tool = some f := by
  simp only [editTools, List.mem_cons, Prod.mk.injEq, List.not_mem_nil, or_false] at htool
  rcases htool with ⟨rfl, -⟩ | ⟨rfl, -⟩ | ⟨rfl, -⟩ | ⟨rfl, -⟩ | ⟨rfl, -⟩ | ⟨rfl, -⟩ | ⟨rfl, -⟩
  all_goals exact ⟨_, rfl⟩

/-- An edit makes a difference in the place that its call names. -/
theorem differsIn_of_editOf? (htool : (tool, key, pool) ∈ editTools)
    (hf : editOf? args tool = some f) (hname : args.get key = .text name) (h : f a = .ok b) :
    a.DiffersIn b name pool := by
  have htext : (args.get key).bareText = name := by rw [hname]; rfl
  simp only [editTools, List.mem_cons, Prod.mk.injEq, List.not_mem_nil, or_false] at htool
  rcases htool with ⟨rfl, rfl, rfl⟩ | ⟨rfl, rfl, rfl⟩ | ⟨rfl, rfl, rfl⟩ | ⟨rfl, rfl, rfl⟩ |
    ⟨rfl, rfl, rfl⟩ | ⟨rfl, rfl, rfl⟩ | ⟨rfl, rfl, rfl⟩ <;> cases hf
  · exact differsIn_of_addOrFail (fun _ => name_of_instrumentClipOf hname) h
  · exact differsIn_of_addOrFail (fun _ => name_of_emptyClipOf hname) h
  · exact differsIn_of_addOrFail (fun _ => name_of_fileClipOf hname) h
  · rw [htext] at h
    exact Arrangement.differsIn_of_removeClip? (eq_some_of_orMissing h)
  · obtain ⟨t, ht, hb⟩ := bind_eq_ok_iff.1 h
    rw [← Except.ok.inj hb, ← name_of_trackOf hname ht]
    exact a.differsIn_addTrack t
  · rw [htext] at h
    exact Arrangement.differsIn_of_appendClip? (eq_some_of_orMissing h)
  · rw [htext] at h
    exact Arrangement.differsIn_of_removeTrack? (eq_some_of_orMissing h)

end Tool

end Arranger
