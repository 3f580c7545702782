import Arranger.Program
import Arranger.Proofs.Diagnostics.Codes
import Arranger.Proofs.Results
import Arranger.Proofs.Text.Delimited

/-!
# Names of variables

Every name of an arrangement is declared as a variable of its program.  The report remarks on the
names that are no variable names, one after another, but it takes no notice of a line break at the
end of a name.  So two names can pass that declare one variable twice.
-/

namespace Arranger

/-! ## Identifiers -/

/-- A lower case letter and then letters, digits and underscores, all of them in ASCII. -/
def IsVariableName : List Char → Prop
  | [] => False
  | first :: rest => first.isLower ∧ ∀ c ∈ rest, c.isAlphanum ∨ c = '_'

/-- The name of a variable, perhaps with a line break behind it. -/
def IsVariableLine (name : String) : Prop :=
  IsVariableName name.toList ∨ ∃ stem, name.toList = stem ++ ['\n'] ∧ IsVariableName stem

theorem isLowerLetter_eq (c : Char) : Text.isLowerLetter c = c.isLower := rfl

theorem isLetter_eq (c : Char) : Text.isLetter c = c.isAlpha := by
  have hupper : Text.isUpperLetter c = c.isUpper := (Bool.decide_and _ _).symm
  rw [Text.isLetter, hupper, isLowerLetter_eq, Bool.or_comm]
  rfl

theorem isIdentifierChar_iff (c : Char) :
    isIdentifierChar c = true ↔ c.isAlphanum = true ∨ c = '_' := by
  have hdigit : Text.isAsciiDigit c = c.isDigit := rfl
  rw [isIdentifierChar, isLetter_eq, hdigit, Bool.or_eq_true, decide_eq_true_iff]
  rfl

theorem isVariableName_cons_iff {first : Char} {rest : List Char} :
    IsVariableName (first :: rest) ↔
      (Text.isLowerLetter first && rest.all isIdentifierChar) = true := by
  simp only [IsVariableName, isLowerLetter_eq, Bool.and_eq_true, List.all_eq_true,
    isIdentifierChar_iff]

instance : DecidablePred IsVariableName
  | [] => isFalse id
  | _ :: _ => decidable_of_iff _ isVariableName_cons_iff.symm

theorem IsVariableName.isWordChar {s : List Char} (h : IsVariableName s) :
    ∀ c ∈ s, c.isAlphanum ∨ c = '_' := by
  cases s with
  | nil => exact h.elim
  | cons first rest =>
      have hfirst : first.isAlphanum = true := by
        change (first.isUpper || first.isLower || first.isDigit) = true
        rw [show first.isLower = true from h.1, Bool.or_true, Bool.true_or]
      rw [List.forall_mem_cons]
      exact ⟨.inl hfirst, h.2⟩

theorem lineFeed_not_mem {s : List Char} (h : IsVariableName s) : '\n' ∉ s := by
  intro hmem
  exact absurd (h.isWordChar '\n' hmem) (by decide)

theorem isIdentifier_iff (name : String) : isIdentifier name = true ↔ IsVariableLine name := by
  unfold isIdentifier IsVariableLine
  cases name.toList with
  | nil => simp [IsVariableName]
  | cons first rest =>
      dsimp only
      by_cases hbreak : rest.getLast? = some '\n'
      · obtain ⟨body, rfl⟩ := List.getLast?_eq_some_iff.1 hbreak
        rw [if_pos hbreak, List.dropLast_concat, ← isVariableName_cons_iff]
        constructor
        · intro hbody
          exact .inr ⟨first :: body, rfl, hbody⟩
        · rintro (hwhole | ⟨stem, hstem, hname⟩)
          · exact absurd (by simp) (lineFeed_not_mem hwhole)
          · rw [← List.cons_append, List.append_cancel_right_eq] at hstem
            rwa [hstem]
      · rw [if_neg hbreak, ← isVariableName_cons_iff]
        constructor
        · exact .inl
        · rintro (hwhole | ⟨stem, hstem, hname⟩)
          · exact hwhole
          · cases stem with
            | nil => exact hname.elim
            | cons c stem =>
                obtain ⟨-, rfl⟩ := List.cons_eq_cons.1 hstem
                exact absurd (by simp) hbreak

instance : DecidablePred IsVariableLine := fun name =>
  decidable_of_iff (isIdentifier name = true) (isIdentifier_iff name)

/-! ## Remarks on names -/

def identifierCode : String := "INVALID_IDENTIFIER"

theorem withCode_identifier (seen names : List String) :
    withCode identifierCode (nameFindings seen names) =
      (names.filter fun name => ¬IsVariableLine name).map .identifier := by
  induction names generalizing seen with
  | nil => rfl
  | cons name rest ih =>
      have hduplicate : withCode identifierCode
          (if seen.contains name then [.duplicateName name] else []) = [] := by
        split <;> rfl
      have hidentifier : withCode identifierCode
          (if isIdentifier name then [] else [.identifier name]) =
            if IsVariableLine name then [] else [.identifier name] := by
        simp only [isIdentifier_iff]
        split <;> rfl
      rw [nameFindings, withCode_append, withCode_append, hduplicate, hidentifier, ih]
      by_cases hname : IsVariableLine name
      · simp [hname]
      · simp [hname]

theorem ofCode_identifier (a : Arrangement) :
    a.report.ofCode identifierCode =
      (a.names.filter fun name => ¬IsVariableLine name).map fun name =>
        (Finding.identifier name).remark := by
  rw [ofCode_report, withCode_findings_of_name (by decide) (by decide), withCode_identifier,
    List.map_map]
  rfl

/-! ## Declarations -/

namespace Program

/-- What stands in front of the declaration of a program. -/
def preamble : String := synthesizer ++ "\n(\n"

/-- The variables that a declaration begins with: what stands between `var` and the semicolon,
divided at the commas. -/
def variablesOf : List Char → List (List Char)
  | 'v' :: 'a' :: 'r' :: ' ' :: rest => (rest.takeWhile (· ≠ ';')).splitOn ','
  | _ => []

/-- The variables that a program declares behind its preamble, in front of any surrogate. -/
def declaredVariables (program : Label) : List (List Char) :=
  variablesOf (program.front.toList.drop preamble.toList.length)

theorem variablesOf_var (rest : List Char) :
    variablesOf ('v' :: 'a' :: 'r' :: ' ' :: rest) = (rest.takeWhile (· ≠ ';')).splitOn ',' := rfl

theorem exists_declaration_of_source {allowStubs : Bool} {a : Arrangement} {text : Label}
    (h : (source allowStubs a).result = .ok text) :
    ∃ rest, text.front = preamble ++ (declaration a.names ++ "\n" ++ rest) := by
  obtain ⟨definitions, -, htext⟩ := Outcome.result_andThen_eq_ok_iff.1 h
  refine ⟨definitions ++ "\n" ++ (tracks a.tracks ++ closing a.trackNames).front, ?_⟩
  rw [← Except.ok.inj htext, assemble, Label.append_assoc, Label.front_text_append, opening,
    preamble]
  simp only [String.append_assoc]

theorem toList_declaration {names : List String} (hne : names ≠ []) (rest : String) :
    (declaration names ++ "\n" ++ rest).toList =
      'v' :: 'a' :: 'r' :: ' ' ::
        ([','].intercalate (names.map String.toList) ++ ';' :: '\n' :: rest.toList) := by
  simp [declaration, hne]

/-- Names without commas and semicolons can be told from their declaration. -/
theorem declaredVariables_eq {program : Label} {names : List String} {rest : String}
    (hfront : program.front = preamble ++ (declaration names ++ "\n" ++ rest))
    (hnames : ∀ name ∈ names, ',' ∉ name.toList ∧ ';' ∉ name.toList) :
    declaredVariables program = names.map String.toList := by
  have hdrop : ∀ s : String, (preamble ++ s).toList.drop preamble.toList.length = s.toList := by
    intro s
    rw [String.toList_append, List.drop_left]
  unfold declaredVariables
  rw [hfront, hdrop]
  by_cases hne : names = []
  · subst hne
    simp [declaration, variablesOf]
  · have hstop : ∀ c ∈ [','].intercalate (names.map String.toList), decide (c ≠ ';') = true := by
      intro c hc
      rcases Text.mem_of_mem_intercalate hc with hcomma | ⟨u, hu, hcu⟩
      · rw [List.mem_singleton.1 hcomma]
        decide
      · obtain ⟨name, hname, rfl⟩ := List.mem_map.1 hu
        rw [decide_eq_true_iff]
        rintro rfl
        exact (hnames name hname).2 hcu
    have hcommas : ∀ u ∈ names.map String.toList, ',' ∉ u := by
      intro u hu
      obtain ⟨name, hname, rfl⟩ := List.mem_map.1 hu
      exact (hnames name hname).1
    rw [toList_declaration hne, variablesOf_var, List.takeWhile_append_of_pos hstop,
      List.takeWhile_cons_of_neg (by decide), List.append_nil]
    exact List.splitOn_intercalate ',' hcommas (by simpa using hne)

end Program

theorem IsVariableLine.not_mem {name : String} (h : IsVariableLine name) :
    ',' ∉ name.toList ∧ ';' ∉ name.toList := by
  have hchars : ∀ c ∈ name.toList, (c.isAlphanum ∨ c = '_') ∨ c = '\n' := by
    intro c hc
    rcases h with hname | ⟨stem, hstem, hname⟩
    · exact .inl (hname.isWordChar c hc)
    · rw [hstem, List.mem_append, List.mem_singleton] at hc
      exact hc.imp_left (hname.isWordChar c)
  constructor
  · intro hmem
    exact absurd (hchars ',' hmem) (by decide)
  · intro hmem
    exact absurd (hchars ';' hmem) (by decide)

/-- The report remarks on exactly the names that are no variable names, one after another, except
for those that are one with a line break behind it.  If there is no such remark, the program
declares exactly the names of the arrangement, all of which are variable names but for such a line
break. -/
theorem identifier_remarks (a : Arrangement) :
    a.report.ofCode "INVALID_IDENTIFIER" =
        ((a.names.filter fun name => ¬IsVariableLine name).map fun name =>
          (Finding.identifier name).remark) ∧
      (a.report.ofCode "INVALID_IDENTIFIER" = [] →
        ∀ allowStubs text, (Program.source allowStubs a).result = .ok text →
          Program.declaredVariables text = a.names.map String.toList ∧
            ∀ name ∈ a.names, IsVariableLine name) := by
  have hremarks := ofCode_identifier a
  refine ⟨hremarks, ?_⟩
  intro hnone allowStubs text htext
  have hnames : ∀ name ∈ a.names, IsVariableLine name := by
    intro name hname
    by_contra hbad
    have hmem : name ∈ a.names.filter fun name => ¬IsVariableLine name :=
      List.mem_filter.2 ⟨hname, decide_eq_true hbad⟩
    rw [identifierCode, hnone] at hremarks
    rw [List.map_eq_nil_iff.1 hremarks.symm] at hmem
    exact List.not_mem_nil hmem
  obtain ⟨rest, hfront⟩ := Program.exists_declaration_of_source htext
  exact ⟨Program.declaredVariables_eq hfront fun name hname => (hnames name hname).not_mem, hnames⟩

/-- A clip, and a track that is named like it but for a line break. -/
def brokenName : Arrangement where
  name := "a"
  clips := [.empty ⟨⟨"a", by decide⟩, 1.0⟩]
  tracks := [⟨⟨"a\n", by decide⟩, ["a"]⟩]

theorem identifier_remarks_brokenName :
    ∃ text, (Program.source false brokenName).result = .ok text ∧
      Program.declaredVariables text = ["a".toList, "a\n".toList] := by
  obtain ⟨text, htext⟩ : ∃ text, (Program.source false brokenName).result = .ok text := ⟨_, rfl⟩
  have hnone : brokenName.report.ofCode "INVALID_IDENTIFIER" = [] := by decide +kernel
  exact ⟨text, htext, ((identifier_remarks brokenName).2 hnone false text htext).1⟩

/-- A name with a line break behind it is no variable name, and it is not remarked on. -/
theorem brokenName_is_not_remarked :
    (brokenName.names.filter fun name => ¬IsVariableName name.toList) = ["a\n"] ∧
      brokenName.report.ofCode "INVALID_IDENTIFIER" = [] :=
  ⟨by decide +kernel, by decide +kernel⟩

end Arranger
