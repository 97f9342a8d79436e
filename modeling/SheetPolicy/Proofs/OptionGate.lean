import Mathlib
import SheetPolicy.Proofs.Retouch

/-!
Options as a gate. A rule whose options have a problem reports the problems and never looks at the
sheet; a rule whose options have none can read all of them (`options_gate`). The specification of an
option and the reader of its value are two descriptions of the same values: for lists of words and
patterns they agree on every value (`WordList.refused_forms_eq_nil_iff`).
-/

namespace SheetPolicy

/-! ## Lists of words -/

namespace WordList

/-- The forms of an option that lists words and patterns. -/
def forms : List Form :=
  [.test ValueTest.isWordOrPattern.holds, .listOf [.test ValueTest.isWordOrPattern.holds]]

/-- An entry that is not written between slashes is a word, whatever it holds. -/
theorem Entry.parse?_of_not_isPattern {s : String} (h : isPattern s = false) :
    Entry.parse? s = some (.word s) := by
  rw [isPattern, Option.isSome_eq_false_iff, Option.isNone_iff_eq_none] at h
  simp only [Entry.parse?, h]

/-- The test looks at an entry before it reads it, and the reader reads every entry. They agree
because the reader refuses no word. -/
theorem holds_string (s : String) :
    ValueTest.isWordOrPattern.holds (.string s) = (Entry.parse? s).isSome := by
  cases h : isPattern s with
  | true => simp only [ValueTest.holds, h, if_true]
  | false => simp [ValueTest.holds, h, Entry.parse?_of_not_isPattern h]

theorem Entry.exists_ofValue_iff (v : Toml) :
    (∃ entry, Entry.ofValue v = .ok entry) ↔ ValueTest.isWordOrPattern.holds v = true := by
  cases v with
  | string s =>
    rw [holds_string]
    cases h : Entry.parse? s with
    | none => simp [Entry.ofValue, h]
    | some entry => simp [Entry.ofValue, h]
  | integer | float | boolean | datetime | array | table => simp [Entry.ofValue, ValueTest.holds]

/-- A list is read if each of its elements is. -/
theorem exists_mapM_ofValue_iff (elements : List Toml) :
    (∃ entries, elements.mapM Entry.ofValue = .ok entries) ↔
      ∀ v ∈ elements, ∃ entry, Entry.ofValue v = .ok entry := by
  induction elements with
  | nil => simp [pure, Except.pure]
  | cons v elements ih =>
    rw [List.forall_mem_cons, ← ih, List.mapM_cons]
    cases Entry.ofValue v with
    | error e => simp [bind, Except.bind]
    | ok entry =>
      cases elements.mapM Entry.ofValue <;> simp [bind, Except.bind, pure, Except.pure]

theorem takes_entry (v : Toml) :
    Form.takes [.test ValueTest.isWordOrPattern.holds] v = ValueTest.isWordOrPattern.holds v := by
  simp [Form.takes]

theorem takes_forms (v : Toml) : Form.takes forms v = ValueTest.isWordOrPattern.holds v := by
  simp [Form.takes, forms]

/-- Nothing of a value is refused exactly if it can be read. -/
theorem refused_forms_eq_nil_iff (v : Toml) :
    Form.refused forms v = [] ↔ ∃ entries, ofValue v = .ok entries := by
  have hwhole : (if Form.takes forms v then [] else [v]) = [] ↔
      ∃ entries, (Entry.ofValue v).map ([·]) = .ok entries := by
    rw [takes_forms]
    have hread := Entry.exists_ofValue_iff v
    cases hv : Entry.ofValue v <;> simp_all [Except.map]
  cases v with
  | array elements =>
    have helements : Form.refused forms (.array elements) =
        elements.filter fun v => !Form.takes [.test ValueTest.isWordOrPattern.holds] v := rfl
    rw [helements, List.filter_eq_nil_iff, ofValue, exists_mapM_ofValue_iff]
    refine forall₂_congr fun v _ => ?_
    rw [takes_entry, Entry.exists_ofValue_iff]
    simp
  | string | integer | float | boolean | datetime | table => exact hwhole

end WordList

/-! ## Words -/

theorem Form.refused_words {words : List String} {v : Toml}
    (h : Form.refused (words.map .word) v = []) : ∃ text ∈ words, v.asString? = some text := by
  have htakes : Form.takes (words.map .word) v = true := by
    simp only [Form.refused] at h
    split at h
    · -- no word is a list, so an array is not looked into
      rename_i hinner
      obtain ⟨_, hmem, hinner⟩ := List.exists_of_findSome?_eq_some hinner
      obtain ⟨_, _, rfl⟩ := List.mem_map.1 hmem
      cases hinner
    · by_contra hrefused
      simp [hrefused] at h
  rw [Form.takes, List.any_map, List.any_eq_true] at htakes
  obtain ⟨text, hmem, htext⟩ := htakes
  exact ⟨text, hmem, beq_iff_eq.1 htext⟩

namespace OptionSpec

theorem primaryProblems_some {forms : List Form} (hforms : forms ≠ []) (v : Toml) :
    primaryProblems forms (some v) = (Form.refused forms v).map .invalidValue := by
  cases forms with
  | nil => contradiction
  | cons => rfl

/-- An option that takes only words is given and is one of them. -/
theorem exists_word {words : List String} (hwords : words ≠ []) {options : Options}
    (h : primaryProblems (words.map .word) options.primary = []) :
    ∃ text ∈ words, options.primaryText? = some text := by
  have hforms : words.map Form.word ≠ [] := by simpa using hwords
  cases hprimary : options.primary with
  | none => simp [primaryProblems, hprimary, hwords] at h
  | some v =>
    rw [hprimary, primaryProblems_some hforms, List.map_eq_nil_iff] at h
    obtain ⟨text, hmem, htext⟩ := Form.refused_words h
    exact ⟨text, hmem, by simp [Options.primaryText?, hprimary, htext]⟩

/-- A secondary option that is known and given takes one of its forms. -/
theorem refused_secondary {spec : List (String × List Form)} {options : Options}
    (h : (options.secondary.getD []).flatMap (secondaryProblems spec) = []) {key : String}
    {forms : List Form} (hspec : spec.find? (fun entry => entry.1 == key) = some (key, forms))
    {v : Toml} (hv : options.secondary? key = some v) : Form.refused forms v = [] := by
  obtain ⟨table, htable, hget⟩ := Option.bind_eq_some_iff.1 hv
  obtain ⟨⟨name, value⟩, hfind, rfl⟩ := Option.map_eq_some_iff.1 hget
  have hname : name = key := by simpa using List.find?_some hfind
  subst hname
  rw [htable, Option.getD_some, List.flatMap_eq_nil_iff] at h
  have hentry := h _ (List.mem_of_find?_eq_some hfind)
  simpa [secondaryProblems, hspec] using hentry

theorem problems_eq_nil {spec : OptionSpec} {options : Options}
    (h : spec.problems options = []) :
    primaryProblems spec.primary options.primary = [] ∧
      (options.secondary.getD []).flatMap (secondaryProblems spec.secondary) = [] :=
  List.append_eq_nil_iff.1 h

end OptionSpec

/-! ## Reading options without problems -/

section Readable

variable {options : Options}

theorem FontWeight.readable {keywords : Keywords}
    (h : (FontWeight.rule keywords).spec.problems options = []) :
    ∃ text expected ignored, options.primaryText? = some text ∧
      Spelling.parse text = .ok expected ∧ ignoredBy options = .ok ignored := by
  obtain ⟨hprimary, hsecondary⟩ := OptionSpec.problems_eq_nil h
  obtain ⟨text, hmem, htext⟩ :=
    OptionSpec.exists_word (List.cons_ne_nil "numeric" ["named-where-possible"]) hprimary
  have hexpected : ∃ expected, Spelling.parse text = .ok expected := by
    simp only [List.mem_cons, List.not_mem_nil, or_false] at hmem
    rcases hmem with rfl | rfl
    · exact ⟨.numeric, rfl⟩
    · exact ⟨.namedWherePossible, rfl⟩
  have hignored : ∃ ignored, ignoredBy options = .ok ignored := by
    cases hkey : options.secondary? "ignore-values" with
    | none => exact ⟨[], by simp only [ignoredBy, hkey]⟩
    | some v =>
      have hrefused := OptionSpec.refused_secondary hsecondary rfl hkey
      obtain ⟨entries, hentries⟩ := (WordList.refused_forms_eq_nil_iff v).1 hrefused
      exact ⟨entries, by simp only [ignoredBy, hkey, hentries]⟩
  obtain ⟨expected, hexpected⟩ := hexpected
  obtain ⟨ignored, hignored⟩ := hignored
  exact ⟨text, expected, ignored, htext, hexpected, hignored⟩

theorem PseudoClass.readable (h : PseudoClass.rule.spec.problems options = []) :
    ∃ v allowed, options.primary = some v ∧ WordList.ofValue v = .ok allowed := by
  obtain ⟨hprimary, _⟩ := OptionSpec.problems_eq_nil h
  cases hv : options.primary with
  | none => simp [hv, OptionSpec.primaryProblems, PseudoClass.rule] at hprimary
  | some v =>
    have hrefused : Form.refused WordList.forms v = [] := by
      rw [hv] at hprimary
      exact List.map_eq_nil_iff.1 hprimary
    obtain ⟨allowed, hallowed⟩ := (WordList.refused_forms_eq_nil_iff v).1 hrefused
    exact ⟨v, allowed, rfl, hallowed⟩

theorem RangeOperator.readable (h : RangeOperator.rule.spec.problems options = []) :
    ∃ text expected, options.primaryText? = some text ∧ SpaceAfter.parse text = .ok expected := by
  obtain ⟨hprimary, _⟩ := OptionSpec.problems_eq_nil h
  obtain ⟨text, hmem, htext⟩ :=
    OptionSpec.exists_word (List.cons_ne_nil "always" ["never"]) hprimary
  simp only [List.mem_cons, List.not_mem_nil, or_false] at hmem
  rcases hmem with rfl | rfl
  · exact ⟨_, .always, htext, rfl⟩
  · exact ⟨_, .never, htext, rfl⟩

end Readable

/-! ## The gate -/

/-- The finding is about a node of the sheet, not about the options. -/
def Finding.IsPolicy (finding : Finding) : Prop :=
  ∃ offset node key message mild, finding = .policy offset node key message mild

theorem FontWeight.finding?_isPolicy {keywords : Keywords} {expected : Spelling}
    {ignored : List WordList.Entry} {x : Declaration × Parent} {finding : Finding}
    (h : finding? keywords expected ignored x = some finding) : finding.IsPolicy := by
  obtain ⟨weight, _, h⟩ := Option.bind_eq_some_iff.1 h
  split at h
  · cases h
  · obtain ⟨fault, _, h⟩ := Option.bind_eq_some_iff.1 h
    exact ⟨_, _, _, _, _, (Option.some.inj h).symm⟩

theorem PseudoClass.findings_isPolicy {allowed : List WordList.Entry} {head : StyleRule} :
    ∀ finding ∈ findings allowed head, finding.IsPolicy := by
  intro finding h
  simp only [findings] at h
  split at h
  · cases h
  · split at h
    · exact ⟨_, _, _, _, _, List.mem_singleton.1 h⟩
    · obtain ⟨pseudo, _, h⟩ := List.mem_filterMap.1 h
      obtain ⟨name, _, rfl⟩ := Option.map_eq_some_iff.1 h
      exact ⟨_, _, _, _, _, rfl⟩

theorem RangeOperator.findings_isPolicy {expected : SpaceAfter} {head : AtRule} :
    ∀ finding ∈ findings expected head, finding.IsPolicy := by
  intro finding h
  unfold findings at h
  split at h
  · obtain ⟨operator, _, h⟩ := List.mem_filterMap.1 h
    obtain ⟨fault, _, rfl⟩ := Option.map_eq_some_iff.1 h
    exact ⟨_, _, _, _, _, rfl⟩
  · cases h

theorem Rule.inspect_isPolicy {keywords : Keywords} {rule : Rule}
    (hrule : rule ∈ Rule.builtIn keywords) (options : Options) (sheet : Sheet) :
    ∀ finding ∈ rule.inspect options sheet, finding.IsPolicy := by
  intro finding hfinding
  simp only [Rule.builtIn, List.mem_cons, List.not_mem_nil, or_false] at hrule
  rcases hrule with rfl | rfl | rfl | rfl
  · simp only [FontWeight.rule, FontWeight.inspect] at hfinding
    split at hfinding
    · obtain ⟨x, _, hfinding⟩ := List.mem_filterMap.1 hfinding
      exact FontWeight.finding?_isPolicy hfinding
    · cases hfinding
  · simp only [PseudoClass.rule, PseudoClass.inspect] at hfinding
    split at hfinding
    · obtain ⟨head, _, hfinding⟩ := List.mem_flatMap.1 hfinding
      exact PseudoClass.findings_isPolicy finding hfinding
    · cases hfinding
  · simp only [RangeOperator.rule, RangeOperator.inspect] at hfinding
    split at hfinding
    · obtain ⟨head, _, hfinding⟩ := List.mem_flatMap.1 hfinding
      exact RangeOperator.findings_isPolicy finding hfinding
    · cases hfinding
  · obtain ⟨head, _, rfl⟩ := List.mem_map.1 hfinding
    exact ⟨_, _, _, _, _, rfl⟩

theorem Finding.IsPolicy.kind_violation? {finding : Finding} (h : finding.IsPolicy)
    {file : SheetFile} {speaker : Speaker} {severity : Severity} {v : Violation}
    (hv : finding.violation? file speaker severity = some v) : v.kind = .policy := by
  obtain ⟨offset, node, key, message, mild, rfl⟩ := h
  exact (Finding.violation?_eq_some hv).2.1

namespace Rule

variable {rule : Rule} {severity : Severity} {options : Options} {path : String} {sheet : Sheet}

theorem kind_violations {keywords : Keywords} (hrule : rule ∈ Rule.builtIn keywords)
    (h : rule.spec.problems options = []) {file : SheetFile} :
    ∀ v ∈ rule.violations severity options file sheet, v.kind = .policy := by
  intro v hv
  obtain ⟨finding, hfinding, hviolation⟩ := List.mem_filterMap.1 hv
  have hcheck : rule.check options sheet = rule.inspect options sheet := by
    rw [Rule.check, h]
  rw [hcheck] at hfinding
  exact (Rule.inspect_isPolicy hrule options sheet finding hfinding).kind_violation? hviolation

/-- The report of a problem of the options. It is about the file as a whole. -/
def complaint (rule : Rule) (severity : Severity) (path : String) (p : OptionProblem) : Violation :=
  ⟨rule.code, rule.name, severity, .invalidOption, ⟨path, 1, 1, 0⟩, none, p.key,
    p.message rule.name, none⟩

theorem violations_of_problems (h : rule.spec.problems options ≠ []) :
    rule.violations severity options (SheetFile.ofSheet path sheet) sheet =
      (rule.spec.problems options).map (rule.complaint severity path) := by
  have hcheck : rule.check options sheet =
      (rule.spec.problems options).map (OptionProblem.finding rule.name) := by
    rw [Rule.check]
    cases hproblems : rule.spec.problems options with
    | nil => exact absurd hproblems h
    | cons => rfl
  rw [Rule.violations, hcheck, List.filterMap_map, ← List.filterMap_eq_map]
  rfl

end Rule

/-- Options with a problem get at least one report, each about the options and the same for every
sheet. Options without one get none, and all that a rule reads of them can be read, so that it does
look at the sheet. The options that list words and patterns take exactly the values that can be
read. -/
theorem options_gate (keywords : Keywords) (options : Options) :
    (∀ rule ∈ Rule.builtIn keywords, ∀ severity path,
      (rule.spec.problems options ≠ [] →
        ∃ reports ≠ [], (∀ v ∈ reports, v.kind = .invalidOption) ∧
          ∀ sheet, rule.violations severity options (SheetFile.ofSheet path sheet) sheet = reports) ∧
      (rule.spec.problems options = [] →
        ∀ sheet, ∀ v ∈ rule.violations severity options (SheetFile.ofSheet path sheet) sheet,
          v.kind ≠ .invalidOption)) ∧
    ((FontWeight.rule keywords).spec.problems options = [] →
      ∃ text expected ignored, options.primaryText? = some text ∧
        FontWeight.Spelling.parse text = .ok expected ∧
        FontWeight.ignoredBy options = .ok ignored ∧
        ∀ sheet, (FontWeight.rule keywords).check options sheet =
          sheet.declarations.filterMap (FontWeight.finding? keywords expected ignored)) ∧
    (PseudoClass.rule.spec.problems options = [] →
      ∃ v allowed, options.primary = some v ∧ WordList.ofValue v = .ok allowed ∧
        ∀ sheet, PseudoClass.rule.check options sheet =
          sheet.rules.flatMap (PseudoClass.findings allowed)) ∧
    (RangeOperator.rule.spec.problems options = [] →
      ∃ text expected, options.primaryText? = some text ∧ SpaceAfter.parse text = .ok expected ∧
        ∀ sheet, RangeOperator.rule.check options sheet =
          sheet.atRules.flatMap (RangeOperator.findings expected)) ∧
    (∀ v, Form.refused PseudoClass.rule.spec.primary v = [] ↔
      ∃ entries, WordList.ofValue v = .ok entries) ∧
    ∀ key forms, (key, forms) ∈ (FontWeight.rule keywords).spec.secondary →
      ∀ v, Form.refused forms v = [] ↔ ∃ entries, WordList.ofValue v = .ok entries := by
  refine ⟨fun rule hrule severity path => ⟨fun h => ?_, fun h sheet v hv hkind => ?_⟩,
    fun h => ?_, fun h => ?_, fun h => ?_, WordList.refused_forms_eq_nil_iff,
    fun key forms h => ?_⟩
  · refine ⟨(rule.spec.problems options).map (rule.complaint severity path), by simpa using h, ?_,
      fun sheet => Rule.violations_of_problems h⟩
    intro v hv
    obtain ⟨p, _, rfl⟩ := List.mem_map.1 hv
    rfl
  · rw [Rule.kind_violations hrule h v hv] at hkind
    cases hkind
  · obtain ⟨text, expected, ignored, htext, hexpected, hignored⟩ := FontWeight.readable h
    refine ⟨text, expected, ignored, htext, hexpected, hignored, fun sheet => ?_⟩
    rw [Rule.check, h]
    simp only [FontWeight.rule, FontWeight.inspect, htext, Option.getD_some, hexpected, hignored]
  · obtain ⟨v, allowed, hv, hallowed⟩ := PseudoClass.readable h
    refine ⟨v, allowed, hv, hallowed, fun sheet => ?_⟩
    rw [Rule.check, h]
    simp only [PseudoClass.rule, PseudoClass.inspect, hv, Option.map_some, hallowed]
  · obtain ⟨text, expected, htext, hexpected⟩ := RangeOperator.readable h
    refine ⟨text, expected, htext, hexpected, fun sheet => ?_⟩
    rw [Rule.check, h]
    simp only [RangeOperator.rule, RangeOperator.inspect, htext, Option.map_some, hexpected]
  · obtain ⟨_, rfl⟩ := Prod.mk.inj (List.mem_singleton.1 h)
    exact WordList.refused_forms_eq_nil_iff

/-- A word that is no notation, a pattern that makes no sense beside an element that is no string,
and an option that does not exist. -/
def sampleRefused : Options :=
  ⟨some (.string "bold"),
    some [("ignore-values", .array [.string "/(/i", .integer 3, .string "/^x/i"]),
      ("ignored", .boolean true)]⟩

/-- A pattern, a word, and a word that would make no sense as a pattern. -/
def sampleTaken : Options :=
  ⟨some (.string "numeric"),
    some [("ignore-values", .array [.string "/^x/i", .string "y", .string "/("])]⟩

theorem options_gate_sample :
    ((FontWeight.rule {}).spec.problems sampleRefused).map OptionProblem.key =
      ["invalid-option-value", "invalid-secondary-value", "invalid-secondary-value",
        "invalid-option-name"] ∧
    (∃ reports ≠ [], (∀ v ∈ reports, v.kind = .invalidOption) ∧ ∀ sheet,
      (FontWeight.rule {}).violations .error sampleRefused (SheetFile.ofSheet "a.css" sheet) sheet =
        reports) ∧
    (FontWeight.rule {}).spec.problems sampleTaken = [] ∧
    (∀ sheet, ∀ v ∈ (FontWeight.rule {}).violations .error sampleTaken
      (SheetFile.ofSheet "a.css" sheet) sheet, v.kind ≠ .invalidOption) ∧
    (∃ text expected ignored, sampleTaken.primaryText? = some text ∧
      FontWeight.Spelling.parse text = .ok expected ∧
      FontWeight.ignoredBy sampleTaken = .ok ignored ∧
      ∀ sheet, (FontWeight.rule {}).check sampleTaken sheet =
        sheet.declarations.filterMap (FontWeight.finding? {} expected ignored)) ∧
    (∃ v allowed, (Options.mk (some (.string "/^nth/")) none).primary = some v ∧
      WordList.ofValue v = .ok allowed ∧
      ∀ sheet, PseudoClass.rule.check ⟨some (.string "/^nth/"), none⟩ sheet =
        sheet.rules.flatMap (PseudoClass.findings allowed)) ∧
    (∃ text expected, (Options.mk (some (.string "never")) none).primaryText? = some text ∧
      SpaceAfter.parse text = .ok expected ∧
      ∀ sheet, RangeOperator.rule.check ⟨some (.string "never"), none⟩ sheet =
        sheet.atRules.flatMap (RangeOperator.findings expected)) := by
  have hkeys : ((FontWeight.rule {}).spec.problems sampleRefused).map OptionProblem.key =
      ["invalid-option-value", "invalid-secondary-value", "invalid-secondary-value",
        "invalid-option-name"] := by
    decide +kernel
  have hrefused : (FontWeight.rule {}).spec.problems sampleRefused ≠ [] := by
    intro h
    simp [h] at hkeys
  have htaken : (FontWeight.rule {}).spec.problems sampleTaken = [] :=
    List.isEmpty_iff.1 (by decide +kernel)
  have hpseudo : PseudoClass.rule.spec.problems ⟨some (.string "/^nth/"), none⟩ = [] :=
    List.isEmpty_iff.1 (by decide +kernel)
  have hoperator : RangeOperator.rule.spec.problems ⟨some (.string "never"), none⟩ = [] :=
    List.isEmpty_iff.1 (by decide +kernel)
  have hmem : FontWeight.rule {} ∈ Rule.builtIn {} := List.mem_cons_self
  exact ⟨hkeys, ((options_gate {} sampleRefused).1 _ hmem .error "a.css").1 hrefused, htaken,
    ((options_gate {} sampleTaken).1 _ hmem .error "a.css").2 htaken,
    (options_gate {} sampleTaken).2.1 htaken, (options_gate {} _).2.2.1 hpseudo,
    (options_gate {} _).2.2.2.1 hoperator⟩

end SheetPolicy
