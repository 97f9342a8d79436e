import Mathlib
import SheetPolicy.Rule.Preset
import SheetPolicy.Proofs.Sorting

/-!
Rules do not interfere. What a linter reports for some of its rules is what a linter with only these
rules reports (`lint_keeping`), whether the others are not registered or switched off by the
configuration (`lint_disabling`).
-/

namespace SheetPolicy

/-! ## The rule of a violation -/

theorem Rule.rule_of_mem_violations {rule : Rule} {severity : Severity} {options : Options}
    {file : SheetFile} {sheet : Sheet} {v : Violation}
    (h : v ∈ rule.violations severity options file sheet) : v.rule = rule.name := by
  obtain ⟨finding, _, hv⟩ := List.mem_filterMap.1 h
  exact (Finding.violation?_eq_some hv).1

/-- A rule that is asked for gives all its violations, and any other gives none. -/
theorem Rule.filter_violations (keep : String → Bool) (rule : Rule) (severity : Severity)
    (options : Options) (file : SheetFile) (sheet : Sheet) :
    (rule.violations severity options file sheet).filter (fun v => keep v.rule) =
      if keep rule.name then rule.violations severity options file sheet else [] := by
  split
  · rename_i hkeep
    refine List.filter_eq_self.2 fun v hv => ?_
    rwa [Rule.rule_of_mem_violations hv]
  · rename_i hkeep
    refine List.filter_eq_nil_iff.2 fun v hv => ?_
    rwa [Rule.rule_of_mem_violations hv]

/-! ## Linters with fewer rules -/

namespace Linter

/-- The linter with only the rules that have certain names. -/
def keeping (l : Linter) (keep : String → Bool) : Linter :=
  { l with rules := l.rules.filter fun r => keep r.rule.name }

/-- The violations of all rules in a sheet, rule by rule. -/
def found (l : Linter) (path : String) (sheet : Sheet) : List Violation :=
  l.rules.flatMap fun r =>
    r.rule.violations (l.severityOf r.rule) r.options
      (SheetFile.ofSheet (Path.relativeTo l.root path) sheet) sheet

theorem lint_of_parse (l : Linter) (path : String) {source : String} {sheet : Sheet}
    (h : Sheet.parse source = .ok sheet) :
    l.lint path source = .ok ((l.found path sheet).mergeSort Violation.comesBefore) := by
  simp only [lint, h, found]

theorem found_keeping (l : Linter) (keep : String → Bool) (path : String) (sheet : Sheet) :
    (l.keeping keep).found path sheet = (l.found path sheet).filter fun v => keep v.rule := by
  simp only [found, keeping, severityOf, List.filter_flatMap, Rule.filter_violations]
  induction l.rules with
  | nil => rfl
  | cons r rules ih =>
    by_cases hkeep : keep r.rule.name = true
    · simp [hkeep, ih]
    · simp [hkeep, ih]

theorem lint_keeping (l : Linter) (keep : String → Bool) (path source : String) :
    (l.keeping keep).lint path source =
      (l.lint path source).map (List.filter fun v => keep v.rule) := by
  cases h : Sheet.parse source with
  | error e => simp only [lint, h, Except.map]
  | ok sheet =>
    rw [lint_of_parse _ _ h, lint_of_parse _ _ h, found_keeping,
      mergeSort_filter Violation.comesBefore_trans Violation.comesBefore_total]
    rfl

/-- A report hangs on the root, the rules and their severities only. -/
theorem lint_congr {l l' : Linter} (hroot : l.root = l'.root) (hrules : l.rules = l'.rules)
    (hseverity : ∀ r ∈ l.rules, l.severityOf r.rule = l'.severityOf r.rule) (path source : String) :
    l.lint path source = l'.lint path source := by
  cases h : Sheet.parse source with
  | error e => simp only [lint, h]
  | ok sheet =>
    have hfound : l.found path sheet = l'.found path sheet := by
      rw [found, found, hroot, ← hrules]
      refine List.flatMap_congr fun r hr => ?_
      rw [hseverity r hr]
    rw [lint_of_parse _ _ h, lint_of_parse _ _ h, hfound]

end Linter

/-! ## Switching rules off -/

/-- The configuration with a rule switched off and all else as it is. -/
def Config.disabling (c : Config) (name : String) : Config :=
  { c with rules := (name, { (c.settings? name).getD {} with enabled := some false }) :: c.rules }

namespace Config

theorem settings?_disabling_self (c : Config) (name : String) :
    (c.disabling name).settings? name =
      some { (c.settings? name).getD {} with enabled := some false } := by
  simp [settings?, disabling]

theorem settings?_disabling_of_ne (c : Config) {name other : String} (h : name ≠ other) :
    (c.disabling name).settings? other = c.settings? other := by
  simp [settings?, disabling, h]

theorem search_foldl_disabling (off : List String) (c : Config) :
    (off.foldl disabling c).search = c.search := by
  induction off generalizing c with
  | nil => rfl
  | cons name off ih => rw [List.foldl_cons, ih, disabling]

theorem settings?_foldl_disabling {off : List String} {name : String} (h : name ∉ off)
    (c : Config) : (off.foldl disabling c).settings? name = c.settings? name := by
  induction off generalizing c with
  | nil => rfl
  | cons other off ih =>
    obtain ⟨hne, hoff⟩ := not_or.1 (mt List.mem_cons.2 h)
    rw [List.foldl_cons, ih hoff, settings?_disabling_of_ne c (Ne.symm hne)]

theorem isEnabled_foldl_disabling_of_eq_false {c : Config} {name : String}
    (h : c.isEnabled name = false) (off : List String) :
    (off.foldl disabling c).isEnabled name = false := by
  induction off generalizing c with
  | nil => exact h
  | cons other off ih =>
    refine ih ?_
    by_cases hname : other = name
    · subst hname
      rw [isEnabled, settings?_disabling_self]
      rfl
    · rw [isEnabled, settings?_disabling_of_ne c hname]
      exact h

theorem isEnabled_foldl_disabling {off : List String} {name : String} (h : name ∈ off)
    (c : Config) : (off.foldl disabling c).isEnabled name = false := by
  induction off generalizing c with
  | nil => cases h
  | cons other off ih =>
    rcases List.mem_cons.1 h with rfl | h
    · refine isEnabled_foldl_disabling_of_eq_false ?_ off
      rw [isEnabled, settings?_disabling_self]
      rfl
    · exact ih h _

end Config

namespace Linter

/-- The plan with some rules switched off by its configuration. -/
def Plan.disabling (plan : Plan) (off : List String) : Plan :=
  { plan with config := off.foldl Config.disabling plan.config }

/-- The rule with the options of the configuration laid over its own. -/
def layered (c : Config) (r : ActiveRule) : ActiveRule :=
  match c.options? r.rule.name with
  | some options => { r with options := options.layeredOver r.options }
  | none => r

theorem rule_layered (c : Config) (r : ActiveRule) : (layered c r).rule = r.rule := by
  unfold layered
  split <;> rfl

theorem rules_build (plan : Plan) (workingDirectory : String) :
    (plan.build workingDirectory).rules =
      (plan.rules.filter fun r => plan.config.isEnabled r.rule.name).map (layered plan.config) :=
  rfl

variable {plan : Plan} {keep : String → Bool} {off : List String}
  (hoff : ∀ r ∈ plan.rules, r.rule.name ∈ off ↔ keep r.rule.name = false)
include hoff

theorem rules_build_disabling (workingDirectory : String) :
    ((plan.disabling off).build workingDirectory).rules =
      ((plan.build workingDirectory).keeping keep).rules := by
  have hname : ∀ r ∈ plan.rules, (plan.disabling off).config.isEnabled r.rule.name =
      (keep r.rule.name && plan.config.isEnabled r.rule.name) := by
    intro r hr
    by_cases hmem : r.rule.name ∈ off
    · rw [(hoff r hr).1 hmem, Bool.false_and]
      exact Config.isEnabled_foldl_disabling hmem plan.config
    · have hkeep : keep r.rule.name = true := by simpa using mt (hoff r hr).2 hmem
      rw [hkeep, Bool.true_and, Config.isEnabled, Plan.disabling,
        Config.settings?_foldl_disabling hmem, Config.isEnabled]
  simp only [keeping, rules_build, List.filter_map, List.filter_filter, Function.comp_def,
    rule_layered]
  have hrules : (plan.disabling off).rules = plan.rules := rfl
  rw [hrules, List.filter_congr hname]
  refine List.map_congr_left fun r hr => ?_
  obtain ⟨hr, hkept⟩ := List.mem_filter.1 hr
  have hmem : r.rule.name ∉ off := by
    rw [hoff r hr]
    simp_all
  simp only [layered, Config.options?, Plan.disabling, Config.settings?_foldl_disabling hmem]

theorem lint_disabling (workingDirectory path source : String) :
    ((plan.disabling off).build workingDirectory).lint path source =
      ((plan.build workingDirectory).keeping keep).lint path source := by
  have hrules := rules_build_disabling hoff workingDirectory
  refine lint_congr ?_ hrules ?_ path source
  · simp only [Plan.build, Plan.disabling, keeping, Config.search_foldl_disabling]
  · intro r hr
    rw [hrules, keeping, List.mem_filter, rules_build] at hr
    obtain ⟨hr, hkeep⟩ := hr
    obtain ⟨own, hown, rfl⟩ := List.mem_map.1 hr
    rw [rule_layered] at hkeep ⊢
    have hmem : own.rule.name ∉ off := by
      rw [hoff own (List.mem_filter.1 hown).1, hkeep]
      simp
    simp only [severityOf, Config.severity?, keeping, Plan.build, Plan.disabling,
      Config.settings?_foldl_disabling hmem]

end Linter

/-! ## Main result -/

/-- What is reported for some of the rules is what a linter reports that has only these, in the same
order, whether the others are taken out or switched off by the configuration. So it hangs only on
these rules, their severities and the root. A sheet that cannot be read is the same error for both. -/
theorem lint_independent (keep : String → Bool) (path source : String) :
    (∀ l : Linter, (l.keeping keep).lint path source =
      (l.lint path source).map (List.filter fun v => keep v.rule)) ∧
    (∀ (plan : Linter.Plan) (workingDirectory : String) (off : List String),
      (∀ r ∈ plan.rules, r.rule.name ∈ off ↔ keep r.rule.name = false) →
      ((plan.disabling off).build workingDirectory).lint path source =
        ((plan.build workingDirectory).lint path source).map
          (List.filter fun v => keep v.rule)) ∧
    ∀ l l' : Linter, l.root = l'.root → (l.keeping keep).rules = (l'.keeping keep).rules →
      (∀ r ∈ (l.keeping keep).rules, l.severityOf r.rule = l'.severityOf r.rule) →
      (l.lint path source).map (List.filter fun v => keep v.rule) =
        (l'.lint path source).map (List.filter fun v => keep v.rule) := by
  refine ⟨fun l => l.lint_keeping keep path source, fun plan workingDirectory off hoff => ?_,
    fun l l' hroot hrules hseverity => ?_⟩
  · rw [Linter.lint_disabling hoff, Linter.lint_keeping]
  · rw [← Linter.lint_keeping, ← Linter.lint_keeping]
    exact @Linter.lint_congr (l.keeping keep) (l'.keeping keep) hroot hrules hseverity path source

/-- One rule twice and another in between; all three speak of the first line and column. -/
def samplePlan : Linter.Plan where
  root := some "/"
  rules := [⟨PseudoClass.rule, ⟨none, none⟩⟩, ⟨SingleLine.rule, ⟨none, none⟩⟩,
    ⟨PseudoClass.rule, ⟨some (.string "focus"), none⟩⟩]

/-- The same rules in another order. -/
def samplePlanMixed : Linter.Plan :=
  { samplePlan with
    rules := [⟨SingleLine.rule, ⟨none, none⟩⟩, ⟨PseudoClass.rule, ⟨none, none⟩⟩,
      ⟨PseudoClass.rule, ⟨some (.string "focus"), none⟩⟩] }

def isPseudoClass (name : String) : Bool :=
  name = "selector-pseudo-class-whitelist"

theorem lint_samplePlan : ∃ reports,
    (samplePlan.build "/").lint "/a.css" ":x\x7b\x7d" = .ok reports ∧
    reports.map (fun v => (v.rule, v.key)) =
      [("selector-pseudo-class-whitelist", "expected-option"), ("rule-no-single-line", "rejected"),
        ("selector-pseudo-class-whitelist", "rejected")] := by
  have hfound : (Sheet.parse ":x\x7b\x7d").toOption.any (fun sheet =>
      let found := (samplePlan.build "/").found "/a.css" sheet
      found.Pairwise (fun a b => a.comesBefore b = true) ∧
      found.map (fun v => (v.rule, v.key)) =
        [("selector-pseudo-class-whitelist", "expected-option"),
          ("rule-no-single-line", "rejected"),
          ("selector-pseudo-class-whitelist", "rejected")]) = true := by
    decide +kernel
  cases h : Sheet.parse ":x\x7b\x7d" with
  | error e => simp [h, Except.toOption] at hfound
  | ok sheet =>
    simp only [h, Except.toOption, Option.any_some, decide_eq_true_eq] at hfound
    exact ⟨_, by rw [Linter.lint_of_parse _ _ h, List.mergeSort_of_pairwise hfound.1], hfound.2⟩

theorem lint_independent_sample : ∃ reports,
    (samplePlan.build "/").lint "/a.css" ":x\x7b\x7d" = .ok reports ∧
    reports.map (fun v => (v.rule, v.key)) =
      [("selector-pseudo-class-whitelist", "expected-option"), ("rule-no-single-line", "rejected"),
        ("selector-pseudo-class-whitelist", "rejected")] ∧
    ((samplePlan.build "/").keeping isPseudoClass).lint "/a.css" ":x\x7b\x7d" =
      .ok (reports.filter fun v => isPseudoClass v.rule) ∧
    (∀ r ∈ samplePlan.rules,
      r.rule.name ∈ ["rule-no-single-line"] ↔ isPseudoClass r.rule.name = false) ∧
    ((samplePlan.disabling ["rule-no-single-line"]).build "/").lint "/a.css" ":x\x7b\x7d" =
      .ok (reports.filter fun v => isPseudoClass v.rule) ∧
    .ok (reports.filter fun v => isPseudoClass v.rule) =
      ((samplePlanMixed.build "/").lint "/a.css" ":x\x7b\x7d").map
        (List.filter fun v => isPseudoClass v.rule) := by
  obtain ⟨reports, hlint, hreports⟩ := lint_samplePlan
  have hoff : ∀ r ∈ samplePlan.rules,
      r.rule.name ∈ ["rule-no-single-line"] ↔ isPseudoClass r.rule.name = false := by
    have hnames : ∀ name ∈ samplePlan.rules.map fun r => r.rule.name,
        name ∈ ["rule-no-single-line"] ↔ isPseudoClass name = false := by
      decide
    exact fun r hr => hnames _ (List.mem_map_of_mem hr)
  obtain ⟨hkeeping, hdisabling, hmixed⟩ :=
    lint_independent isPseudoClass "/a.css" ":x\x7b\x7d"
  have hkeeping := hkeeping (samplePlan.build "/")
  have hdisabling := hdisabling samplePlan "/" ["rule-no-single-line"] hoff
  have hmixed := hmixed (samplePlan.build "/") (samplePlanMixed.build "/") rfl rfl fun _ _ => rfl
  rw [hlint] at hkeeping hdisabling hmixed
  exact ⟨reports, hlint, hreports, hkeeping, hoff, hdisabling, hmixed⟩

end SheetPolicy
