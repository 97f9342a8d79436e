import Mathlib
import SheetPolicy.Proofs.SourceOrder

/-!
What the severity set for a rule changes. A finding comes to the same violation under every severity
but for the grade (`Finding.violation?_regraded`), and neither directives nor sorting look at grades.
So a run under another severity is the run before, regraded (`Linter.lint_regraded`). Selectors that
cannot be read and reasons that are missing are warnings under every severity.
-/

namespace SheetPolicy

/-! ## Violations and their grades -/

namespace Violation

/-- The keys of what is a warning whatever severity is in force. -/
def mildKeys : List String :=
  ["parse-error", "missing-allow-reason"]

/-- The violation as it is reported when `severity` is in force for `rule`. -/
def regraded (rule : String) (severity : Severity) (v : Violation) : Violation :=
  if v.rule = rule ∧ v.key ∉ mildKeys then { v with severity := severity } else v

/-- The grade of the violation is the one it has if `severity` is in force for `rule`. -/
def IsGraded (rule : String) (severity : Severity) (v : Violation) : Prop :=
  v.rule = rule → v.severity = if v.key ∈ mildKeys then .warning else severity

/-- The two agree in all but the severity, and in that too if they are not of the rule. -/
structure AgreeBut (rule : String) (v w : Violation) : Prop where
  fields : { w with severity := v.severity } = v
  others : v.rule ≠ rule → w.severity = v.severity

theorem regraded_of_ne {rule : String} {v : Violation} (h : v.rule ≠ rule) (severity : Severity) :
    v.regraded rule severity = v :=
  if_neg fun hv => h hv.1

theorem regraded_of_mild {v : Violation} (h : v.key ∈ mildKeys) (rule : String)
    (severity : Severity) : v.regraded rule severity = v :=
  if_neg fun hv => hv.2 h

theorem agreeBut_regraded (rule : String) (severity : Severity) (v : Violation) :
    v.AgreeBut rule (v.regraded rule severity) := by
  refine ⟨?_, fun h => by rw [regraded_of_ne h]⟩
  unfold regraded
  split <;> rfl

theorem comesBefore_regraded (rule : String) (severity : Severity) (v w : Violation) :
    v.comesBefore w = (v.regraded rule severity).comesBefore (w.regraded rule severity) := by
  have hlocation : ∀ u : Violation, (u.regraded rule severity).location = u.location := by
    intro u
    unfold regraded
    split <;> rfl
  simp only [comesBefore, hlocation]

end Violation

/-! ## Findings and their keys -/

/-- The key of a finding says whether it is mild, and no finding says that a reason is missing. -/
def Finding.IsKeyed : Finding → Prop
  | .policy _ _ key _ mild => key ≠ "missing-allow-reason" ∧ (mild = true ↔ key = "parse-error")
  | .invalidOption key _ => key ∉ Violation.mildKeys

theorem OptionProblem.finding_isKeyed (rule : String) (p : OptionProblem) :
    (p.finding rule).IsKeyed := by
  show p.key ∉ Violation.mildKeys
  cases p <;> exact of_decide_eq_true rfl

theorem FontWeight.finding?_isKeyed {keywords : Keywords} {expected : Spelling}
    {ignored : List WordList.Entry} {x : Declaration × Parent} {finding : Finding}
    (h : finding? keywords expected ignored x = some finding) : finding.IsKeyed := by
  obtain ⟨weight, _, h⟩ := Option.bind_eq_some_iff.1 h
  split at h
  · cases h
  · obtain ⟨fault, _, h⟩ := Option.bind_eq_some_iff.1 h
    cases h
    show fault.key ≠ _ ∧ (false = true ↔ fault.key = _)
    cases fault <;> exact ⟨of_decide_eq_true rfl, of_decide_eq_true rfl⟩

theorem PseudoClass.findings_isKeyed {allowed : List WordList.Entry} {head : StyleRule} :
    ∀ finding ∈ findings allowed head, finding.IsKeyed := by
  intro finding h
  simp only [findings] at h
  split at h
  · cases h
  · split at h
    · obtain rfl := List.mem_singleton.1 h
      exact ⟨by decide, by decide⟩
    · obtain ⟨pseudo, _, h⟩ := List.mem_filterMap.1 h
      obtain ⟨name, _, rfl⟩ := Option.map_eq_some_iff.1 h
      exact ⟨by decide, by decide⟩

theorem RangeOperator.findings_isKeyed {expected : SpaceAfter} {head : AtRule} :
    ∀ finding ∈ findings expected head, finding.IsKeyed := by
  intro finding h
  unfold findings at h
  split at h
  · obtain ⟨operator, _, h⟩ := List.mem_filterMap.1 h
    obtain ⟨fault, _, rfl⟩ := Option.map_eq_some_iff.1 h
    cases fault <;> exact ⟨by decide, by decide⟩
  · cases h

theorem Rule.inspect_isKeyed {keywords : Keywords} {rule : Rule}
    (hrule : rule ∈ Rule.builtIn keywords) (options : Options) (sheet : Sheet) :
    ∀ finding ∈ rule.inspect options sheet, finding.IsKeyed := by
  intro finding hfinding
  simp only [Rule.builtIn, List.mem_cons, List.not_mem_nil, or_false] at hrule
  rcases hrule with rfl | rfl | rfl | rfl
  · simp only [FontWeight.rule, FontWeight.inspect] at hfinding
    split at hfinding
    · obtain ⟨x, _, hfinding⟩ := List.mem_filterMap.1 hfinding
      exact FontWeight.finding?_isKeyed hfinding
    · cases hfinding
  · simp only [PseudoClass.rule, PseudoClass.inspect] at hfinding
    split at hfinding
    · obtain ⟨head, _, hfinding⟩ := List.mem_flatMap.1 hfinding
      exact PseudoClass.findings_isKeyed finding hfinding
    · cases hfinding
  · simp only [RangeOperator.rule, RangeOperator.inspect] at hfinding
    split at hfinding
    · obtain ⟨head, _, hfinding⟩ := List.mem_flatMap.1 hfinding
      exact RangeOperator.findings_isKeyed finding hfinding
    · cases hfinding
  · obtain ⟨head, _, rfl⟩ := List.mem_map.1 hfinding
    exact ⟨by decide, by decide⟩

theorem Rule.check_isKeyed {keywords : Keywords} {rule : Rule}
    (hrule : rule ∈ Rule.builtIn keywords) (options : Options) (sheet : Sheet) :
    ∀ finding ∈ rule.check options sheet, finding.IsKeyed := by
  intro finding hfinding
  unfold Rule.check at hfinding
  split at hfinding
  · exact Rule.inspect_isKeyed hrule options sheet finding hfinding
  · obtain ⟨problem, _, rfl⟩ := List.mem_map.1 hfinding
    exact problem.finding_isKeyed rule.name

/-! ## One finding under two severities -/

/-- Under the severity of warnings there is nothing but warnings. -/
theorem Finding.severity_of_warning {finding : Finding} {file : SheetFile} {speaker : Speaker}
    {v : Violation} (h : finding.violation? file speaker .warning = some v) :
    v.severity = .warning := by
  cases finding with
  | invalidOption key message =>
    cases h
    rfl
  | policy offset node key message mild =>
    simp only [violation?] at h
    split at h
    · split at h
      · cases h
        rfl
      · cases h
    · cases h
      exact ite_self _

section Finding

variable {finding : Finding} (h : finding.IsKeyed) (file : SheetFile) (speaker : Speaker)
include h

/-- Whether a finding is reported, and as what, does not hang on the severity; its grade does. -/
theorem Finding.violation?_regraded (severity severity' : Severity) :
    finding.violation? file speaker severity' =
      (finding.violation? file speaker severity).map
        (Violation.regraded speaker.rule severity') := by
  cases finding with
  | invalidOption key message =>
    have hkey : key ∉ Violation.mildKeys := h
    simp only [violation?, Option.map_some, Violation.regraded, hkey, not_false_eq_true, and_self,
      if_true]
  | policy offset node key message mild =>
    obtain ⟨hreason, hmild⟩ := h
    unfold violation?
    dsimp only
    split
    · split
      · have hkey : "missing-allow-reason" ∈ Violation.mildKeys := by decide
        exact congrArg some (Violation.regraded_of_mild hkey _ _).symm
      · rfl
    · cases mild with
      | true =>
        obtain rfl : key = "parse-error" := hmild.1 rfl
        rw [Option.map_some, Violation.regraded_of_mild (List.mem_cons_self ..)]
        rfl
      | false =>
        have hparse : key ≠ "parse-error" := fun hkey => Bool.false_ne_true (hmild.2 hkey)
        simp [Violation.regraded, Violation.mildKeys, hparse, hreason]

theorem Finding.isGraded_violation? {severity : Severity} {v : Violation}
    (hv : finding.violation? file speaker severity = some v) :
    v.IsGraded speaker.rule severity := by
  -- The violation is that of a run in which all are warnings, regraded.
  rw [Finding.violation?_regraded h file speaker .warning] at hv
  obtain ⟨u, hu, rfl⟩ := Option.map_eq_some_iff.1 hv
  intro _
  have hrule := (Finding.violation?_eq_some hu).1
  unfold Violation.regraded
  by_cases hkey : u.key ∈ Violation.mildKeys
  · rw [if_neg fun hu => hu.2 hkey, if_pos hkey]
    exact Finding.severity_of_warning hu
  · rw [if_pos ⟨hrule, hkey⟩]
    exact (if_neg hkey).symm

end Finding

namespace Rule

variable {keywords : Keywords} {rule : Rule} (hrule : rule ∈ Rule.builtIn keywords)
  (options : Options) (file : SheetFile) (sheet : Sheet)
include hrule

theorem violations_regraded (severity severity' : Severity) :
    rule.violations severity' options file sheet =
      (rule.violations severity options file sheet).map (Violation.regraded rule.name severity') := by
  unfold violations
  rw [List.map_filterMap]
  exact List.filterMap_congr fun finding hfinding =>
    Finding.violation?_regraded (check_isKeyed hrule options sheet finding hfinding) file rule.speaker
      severity severity'

theorem isGraded_of_mem_violations {severity : Severity} {v : Violation}
    (hv : v ∈ rule.violations severity options file sheet) : v.IsGraded rule.name severity := by
  obtain ⟨finding, hfinding, hv⟩ := List.mem_filterMap.1 hv
  exact Finding.isGraded_violation? (check_isKeyed hrule options sheet finding hfinding) file
    rule.speaker hv

end Rule

/-- Rules of one name have one severity by default. -/
theorem Rule.severity_eq_of_name {keywords keywords' : Keywords} {rule rule' : Rule}
    (hrule : rule ∈ Rule.builtIn keywords) (hrule' : rule' ∈ Rule.builtIn keywords')
    (h : rule.name = rule'.name) : rule.severity = rule'.severity := by
  simp only [Rule.builtIn, List.mem_cons, List.not_mem_nil, or_false] at hrule hrule'
  rcases hrule with rfl | rfl | rfl | rfl <;> rcases hrule' with rfl | rfl | rfl | rfl <;>
    first
    | rfl
    | exact absurd h (of_decide_eq_true rfl)

/-! ## Linters -/

/-- The two configurations set the same but for the severity of one rule. -/
structure Config.AgreeBut (name : String) (c c' : Config) : Prop where
  preset : c.preset = c'.preset
  failOn : c.failOn = c'.failOn
  search : c.search = c'.search
  others : ∀ other, other ≠ name → c.settings? other = c'.settings? other
  own : { (c.settings? name).getD {} with severity := none } =
    { (c'.settings? name).getD {} with severity := none }

namespace Config

variable {name : String} {c c' : Config} (h : c.AgreeBut name c')
include h

theorem AgreeBut.isEnabled_eq (rule : String) : c.isEnabled rule = c'.isEnabled rule := by
  unfold isEnabled
  by_cases hrule : rule = name
  · subst hrule
    have hown := congrArg RuleSettings.enabled h.own
    cases hc : c.settings? rule <;> cases hc' : c'.settings? rule <;> simp_all
  · rw [h.others rule hrule]

theorem AgreeBut.options?_eq (rule : String) : c.options? rule = c'.options? rule := by
  unfold options?
  by_cases hrule : rule = name
  · subst hrule
    have hprimary := congrArg RuleSettings.primary h.own
    have hrest := congrArg RuleSettings.rest h.own
    cases hc : c.settings? rule <;> cases hc' : c'.settings? rule <;>
      simp_all [RuleSettings.options?]
  · rw [h.others rule hrule]

theorem AgreeBut.severity?_eq {rule : String} (hrule : rule ≠ name) :
    c.severity? rule = c'.severity? rule := by
  rw [severity?, severity?, h.others rule hrule]

end Config

theorem Config.AgreeBut.rules_build {name : String} {plan : Linter.Plan} {config : Config}
    (h : plan.config.AgreeBut name config) (workingDirectory : String) :
    ({ plan with config := config }.build workingDirectory).rules =
      (plan.build workingDirectory).rules := by
  rw [Linter.rules_build, Linter.rules_build]
  have hlayered : Linter.layered config = Linter.layered plan.config := by
    funext r
    simp only [Linter.layered, h.options?_eq]
  rw [hlayered]
  simp only [h.isEnabled_eq]

namespace Linter

/-- The rules of this name are rules of this library; others may be of any kind. -/
def HasBuiltIn (l : Linter) (name : String) : Prop :=
  ∀ r ∈ l.rules, r.rule.name = name → ∃ keywords, r.rule ∈ Rule.builtIn keywords

theorem severityOf_eq_of_name {keywords keywords' : Keywords} {rule rule' : Rule}
    (hrule : rule ∈ Rule.builtIn keywords) (hrule' : rule' ∈ Rule.builtIn keywords')
    (h : rule.name = rule'.name) (l : Linter) : l.severityOf rule = l.severityOf rule' := by
  rw [severityOf, severityOf, h, Rule.severity_eq_of_name hrule hrule' h]

variable {l l' : Linter} {rule : Rule} {keywords : Keywords}

theorem found_regraded (hrules : l.HasBuiltIn rule.name) (hrule : rule ∈ Rule.builtIn keywords)
    (hroot : l'.root = l.root) (hsame : l'.rules = l.rules)
    (hothers : ∀ other, other ≠ rule.name → l'.config.severity? other = l.config.severity? other)
    (path : String) (sheet : Sheet) :
    l'.found path sheet =
      (l.found path sheet).map (Violation.regraded rule.name (l'.severityOf rule)) := by
  unfold found
  rw [hroot, hsame, List.map_flatMap]
  refine List.flatMap_congr fun r hr => ?_
  by_cases hname : r.rule.name = rule.name
  · obtain ⟨tables, hr⟩ := hrules r hr hname
    rw [severityOf_eq_of_name hr hrule hname, ← hname]
    exact Rule.violations_regraded hr _ _ _ _ _
  · have hseverity : l'.severityOf r.rule = l.severityOf r.rule := by
      rw [severityOf, severityOf, hothers _ hname]
    rw [hseverity, List.map_congr_left, List.map_id]
    intro v hv
    refine Violation.regraded_of_ne ?_ _
    rwa [Rule.rule_of_mem_violations hv]

/-- A run under another severity of one rule is the run before, regraded. -/
theorem lint_regraded (hrules : l.HasBuiltIn rule.name) (hrule : rule ∈ Rule.builtIn keywords)
    (hroot : l'.root = l.root) (hsame : l'.rules = l.rules)
    (hothers : ∀ other, other ≠ rule.name → l'.config.severity? other = l.config.severity? other)
    (path source : String) :
    l'.lint path source =
      (l.lint path source).map (List.map (Violation.regraded rule.name (l'.severityOf rule))) := by
  cases h : Sheet.parse source with
  | error e => simp only [lint, h, Except.map]
  | ok sheet =>
    rw [lint_of_parse _ _ h, lint_of_parse _ _ h, found_regraded hrules hrule hroot hsame hothers,
      Except.map, List.map_mergeSort]
    exact fun v _ w _ => Violation.comesBefore_regraded _ _ v w

theorem isGraded_of_lint (hrules : l.HasBuiltIn rule.name) (hrule : rule ∈ Rule.builtIn keywords)
    {path source : String} {reports : List Violation} (h : l.lint path source = .ok reports) :
    ∀ v ∈ reports, v.IsGraded rule.name (l.severityOf rule) := by
  intro v hv hname
  cases hparse : Sheet.parse source with
  | error e => simp [lint, hparse] at h
  | ok sheet =>
    rw [lint_of_parse _ _ hparse] at h
    cases h
    obtain ⟨r, hr, hv⟩ := List.mem_flatMap.1 (List.mem_mergeSort.1 hv)
    have hsame : r.rule.name = rule.name := (Rule.rule_of_mem_violations hv).symm.trans hname
    obtain ⟨tables, hr⟩ := hrules r hr hsame
    rw [← severityOf_eq_of_name hr hrule hsame]
    exact Rule.isGraded_of_mem_violations hr _ _ _ hv (Rule.rule_of_mem_violations hv)

end Linter

/-- What is configured as the severity of a rule changes severities alone. Under two configurations
that differ in nothing else a source has the same violations in the same order, which differ in the
severity of that rule's. In each run these have the severity configured, or else the rule's own. -/
theorem lint_severity_only {plan : Linter.Plan} {workingDirectory : String} {keywords : Keywords}
    {rule : Rule} (hrule : rule ∈ Rule.builtIn keywords)
    (hrules : (plan.build workingDirectory).HasBuiltIn rule.name) {config : Config}
    (hconfig : plan.config.AgreeBut rule.name config) (path source : String) :
    match (plan.build workingDirectory).lint path source,
      ({ plan with config := config }.build workingDirectory).lint path source with
    | .ok reports, .ok reports' =>
      List.Forall₂ (Violation.AgreeBut rule.name) reports reports' ∧
      (∀ v ∈ reports,
        v.IsGraded rule.name ((plan.config.severity? rule.name).getD rule.severity)) ∧
      ∀ v ∈ reports', v.IsGraded rule.name ((config.severity? rule.name).getD rule.severity)
    | .error e, .error e' => e = e'
    | _, _ => False := by
  have hsame := hconfig.rules_build workingDirectory
  have hrules' : ({ plan with config := config }.build workingDirectory).HasBuiltIn rule.name := by
    intro r hr
    exact hrules r (hsame ▸ hr)
  have hroot : ({ plan with config := config }.build workingDirectory).root =
      (plan.build workingDirectory).root := by
    simp only [Linter.Plan.build, hconfig.search]
  have hlint := Linter.lint_regraded hrules hrule hroot hsame
    (fun other hother => (hconfig.severity?_eq hother).symm) path source
  cases h : (plan.build workingDirectory).lint path source with
  | error e =>
    rw [h] at hlint
    rw [hlint]
    rfl
  | ok reports =>
    rw [h] at hlint
    rw [hlint]
    refine ⟨?_, Linter.isGraded_of_lint hrules hrule h, Linter.isGraded_of_lint hrules' hrule hlint⟩
    rw [List.forall₂_map_right_iff]
    exact List.forall₂_same.2 fun v _ => v.agreeBut_regraded _ _

/-- The first rule is allowed without a reason, the third cannot be read. -/
def sampleGrades : String :=
  "/* sheetlint: allow(all) */\na:x\x7b\n\x7d\nb:x\x7b\n\x7d\nc:,\x7b\n\x7d\nd\x7b\x7d"

/-- The sample plan with its rules in another order. -/
def samplePlanGraded : Linter.Plan :=
  { samplePlan with
    rules := [⟨PseudoClass.rule, ⟨none, none⟩⟩, ⟨PseudoClass.rule, ⟨some (.string "focus"), none⟩⟩,
      ⟨SingleLine.rule, ⟨none, none⟩⟩] }

def sampleLenience : Config where
  rules := [("selector-pseudo-class-whitelist", { severity := some .info })]

/-- What is reported when the severity is in force for the rule on pseudo-classes. -/
def sampleKeyed (severity : Severity) : List (String × Severity) :=
  [("expected-option", severity), ("missing-allow-reason", .warning), ("rejected", severity),
    ("parse-error", .warning), ("rejected", .warning)]

theorem agreeBut_sampleLenience :
    samplePlanGraded.config.AgreeBut PseudoClass.rule.name sampleLenience where
  preset := rfl
  failOn := rfl
  search := rfl
  others other hother := by
    have hname : ("selector-pseudo-class-whitelist" == other) = false :=
      beq_false_of_ne fun h => hother h.symm
    simp [Config.settings?, samplePlanGraded, samplePlan, sampleLenience, hname]
  own := rfl

theorem lint_samplePlanGraded (config : Config) (severity : Severity)
    (hfound : (Sheet.parse sampleGrades).toOption.any (fun sheet =>
      let found := ({ samplePlanGraded with config := config }.build "/").found "/a.css" sheet
      found.Pairwise (fun a b => a.comesBefore b = true) ∧
      found.map (fun v => (v.key, v.severity)) = sampleKeyed severity) = true) :
    ∃ reports,
      ({ samplePlanGraded with config := config }.build "/").lint "/a.css" sampleGrades =
        .ok reports ∧
      reports.map (fun v => (v.key, v.severity)) = sampleKeyed severity := by
  cases h : Sheet.parse sampleGrades with
  | error e => simp [h, Except.toOption] at hfound
  | ok sheet =>
    simp only [h, Except.toOption, Option.any_some, decide_eq_true_eq] at hfound
    exact ⟨_, by rw [Linter.lint_of_parse _ _ h, List.mergeSort_of_pairwise hfound.1], hfound.2⟩

/-- Bad options and a pseudo-class that is not listed are graded down, what is a warning is not. -/
theorem lint_severity_only_sample : ∃ reports reports',
    (samplePlanGraded.build "/").lint "/a.css" sampleGrades = .ok reports ∧
    ({ samplePlanGraded with config := sampleLenience }.build "/").lint "/a.css" sampleGrades =
      .ok reports' ∧
    reports.map (fun v => (v.key, v.severity)) = sampleKeyed .error ∧
    reports'.map (fun v => (v.key, v.severity)) = sampleKeyed .info ∧
    List.Forall₂ (Violation.AgreeBut PseudoClass.rule.name) reports reports' := by
  obtain ⟨reports, hlint, hkeyed⟩ :=
    lint_samplePlanGraded samplePlanGraded.config .error (by decide +kernel)
  obtain ⟨reports', hlint', hkeyed'⟩ :=
    lint_samplePlanGraded sampleLenience .info (by decide +kernel)
  have hall : ∀ own ∈ samplePlanGraded.rules, own.rule ∈ Rule.builtIn {} := by
    simp [samplePlanGraded, Rule.builtIn]
  have hrule : PseudoClass.rule ∈ Rule.builtIn {} := by
    simp [Rule.builtIn]
  have hrules : (samplePlanGraded.build "/").HasBuiltIn PseudoClass.rule.name := fun r hr _ =>
    Linter.isBuiltIn_build hall "/" r hr
  have hagree := lint_severity_only hrule hrules agreeBut_sampleLenience "/a.css" sampleGrades
  rw [hlint, hlint'] at hagree
  exact ⟨reports, reports', hlint, hlint', hkeyed, hkeyed', hagree.1⟩

end SheetPolicy
