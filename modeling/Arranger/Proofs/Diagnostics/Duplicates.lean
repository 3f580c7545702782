import Arranger.Proofs.Arrangement.Edits
import Arranger.Proofs.Diagnostics.Codes
import Mathlib.Data.Finset.Card
import Mathlib.Data.Finset.Dedup

/-!
# Repeated names

The clips and the tracks of a tidy arrangement repeat no names among themselves.  So its report has
one remark about a repeated name for each track that shares its name with a clip.
-/

namespace Arranger

def duplicateCode : String := "DUPLICATE_NAME"

/-! ## Names one after another -/

theorem withCode_duplicate_cons (seen : List String) (name : String) (rest : List String) :
    withCode duplicateCode (nameFindings seen (name :: rest)) =
      (if name ∈ seen then [.duplicateName name] else []) ++
        withCode duplicateCode (nameFindings (name :: seen) rest) := by
  have hduplicate : withCode duplicateCode
      (if seen.contains name then [.duplicateName name] else []) =
        if name ∈ seen then [.duplicateName name] else [] := by
    rw [List.contains_eq_mem]
    by_cases hseen : name ∈ seen
    · simp only [hseen, decide_true, if_true]
      rfl
    · simp only [hseen, decide_false, if_false]
      rfl
  have hidentifier : withCode duplicateCode
      (if isIdentifier name then [] else [.identifier name]) = [] := by
    split <;> rfl
  rw [nameFindings, withCode_append, withCode_append, hduplicate, hidentifier, List.append_nil]

theorem card_toFinset_cons (name : String) (seen : List String) :
    (name :: seen).toFinset.card + (if name ∈ seen then 1 else 0) = seen.toFinset.card + 1 := by
  rw [List.toFinset_cons]
  by_cases hseen : name ∈ seen
  · rw [Finset.insert_eq_of_mem (List.mem_toFinset.2 hseen), if_pos hseen]
  · rw [Finset.card_insert_of_notMem (mt List.mem_toFinset.1 hseen), if_neg hseen, Nat.add_zero]

/-- Every place of a name is a repetition but the first one.  The names in front count as seen. -/
theorem length_duplicates_add_card (seen names : List String) :
    (withCode duplicateCode (nameFindings seen names)).length + (seen ++ names).toFinset.card =
      names.length + seen.toFinset.card := by
  induction names generalizing seen with
  | nil => simp [nameFindings, withCode]
  | cons name rest ih =>
      have hnames : (seen ++ name :: rest).toFinset = (name :: seen ++ rest).toFinset := by
        ext x
        simp
      have hlength : (if name ∈ seen then [Finding.duplicateName name] else []).length =
          if name ∈ seen then 1 else 0 := by
        split <;> rfl
      have hcard := card_toFinset_cons name seen
      have hrest := ih (name :: seen)
      rw [withCode_duplicate_cons, List.length_append, hlength, hnames, List.length_cons]
      omega

/-! ## Reports -/

namespace Arrangement

variable {a : Arrangement}

/-- How many remarks there are about a repeated name. -/
def duplicates (a : Arrangement) : Nat :=
  (a.report.ofSeverity .warning).countP (·.code = duplicateCode)

theorem duplicates_eq_length (a : Arrangement) :
    a.duplicates = (withCode duplicateCode a.findings).length := by
  have hseverity : ∀ f : Finding, (decide (f.remark.code = duplicateCode) &&
      decide (f.remark.severity = .warning)) = decide (f.code = duplicateCode) := by
    intro f
    cases f <;> rfl
  rw [duplicates, Report.ofSeverity, List.countP_filter, report, List.countP_map, withCode,
    ← List.countP_eq_length_filter]
  exact List.countP_congr fun f _ => by simp [hseverity]

theorem duplicates_add_card (a : Arrangement) :
    a.duplicates + a.names.toFinset.card = a.names.length := by
  rw [duplicates_eq_length, withCode_findings_of_name (by decide) (by decide)]
  exact length_duplicates_add_card [] a.names

theorem IsTidy.duplicates_eq (h : a.IsTidy) :
    a.duplicates = a.tracks.countP fun t => t.name.val ∈ a.clipNames := by
  have hcount := a.duplicates_add_card
  have hclips := List.toFinset_card_of_nodup h.clipNames_nodup
  have htracks := List.toFinset_card_of_nodup h.trackNames_nodup
  have hunion := Finset.card_union_add_card_inter a.clipNames.toFinset a.trackNames.toFinset
  have hshared : (a.clipNames.toFinset ∩ a.trackNames.toFinset).card =
      a.tracks.countP fun t => t.name.val ∈ a.clipNames := by
    have hfilter : a.clipNames.toFinset ∩ a.trackNames.toFinset =
        (a.trackNames.filter (· ∈ a.clipNames)).toFinset := by
      ext x
      simp [and_comm]
    rw [hfilter, List.toFinset_card_of_nodup (h.trackNames_nodup.filter _),
      ← List.countP_eq_length_filter, trackNames, List.countP_map]
    rfl
  rw [names, List.toFinset_append, List.length_append] at hcount
  omega

theorem IsTidy.lengthsCode_not_mem (h : a.IsTidy) : lengthsCode ∉ a.report.codes := by
  rw [lengthsCode_mem_codes_iff]
  rintro ⟨c, hc, hne⟩
  exact hne (h.lengths_eq c hc)

end Arrangement

end Arranger
