import Mathlib
import SheetPolicy.Proofs.Unmarking

/-!
What directives allow. Without its directives a sheet has the same findings, so its violations are
those without the directives, judged one by one by the directives that end on the line of a
violation or on the line before (`violations_judged`).
-/

namespace SheetPolicy

namespace Sheet

variable {source : String} {sheet : Sheet}

theorem collect_plain (sheet : Sheet) : Directive.collect sheet.plain = [] := by
  have hcomments : sheet.plain.comments = sheet.comments.map Retouch.unmark.comment :=
    Retouch.comments_eq rfl
  rw [Directive.collect, hcomments, List.filterMap_map, List.filterMap_eq_nil_iff]
  intro k _
  rw [Function.comp_apply, Option.map_eq_none_iff, ← Option.not_isSome_iff_eq_none]
  by_cases hk : k.isDirective = true
  · intro hsome
    have hhead := Directive.head_of_parse? hsome
    have htext : (Retouch.unmark.comment k).text = String.ofList ('x' :: k.text.toList.tail) :=
      congrArg Comment.text (if_pos hk)
    rw [htext, String.toList_ofList, ← List.nil_append ('x' :: _),
      Text.trimChars_of_head (by simp) rfl] at hhead
    simp at hhead
  · have hsame : Retouch.unmark.comment k = k := if_neg hk
    rwa [hsame]

theorem inspect_plain (h : Sheet.parse source = .ok sheet) {keywords : Keywords} {rule : Rule}
    (hrule : rule ∈ Rule.builtIn keywords) (options : Options) :
    rule.inspect options sheet.plain = rule.inspect options sheet := by
  have hletter := fun c => @char_of_mark _ _ h c
  have hparent : Retouch.unmark.parent = id := by
    funext p
    cases p <;> rfl
  have hnodes : sheet.plain.nodes = Retouch.unmark.nodes sheet.nodes := rfl
  have hdeclarations : sheet.plain.declarations = sheet.declarations := by
    rw [Retouch.declarations_eq hnodes, hparent]
    exact List.map_id _
  have hrules : sheet.plain.rules = sheet.rules := by
    rw [Retouch.rules_eq hnodes]
    exact List.map_id _
  have hatRules : sheet.plain.atRules = sheet.atRules := by
    rw [Retouch.atRules_eq hnodes]
    exact List.map_id _
  simp only [Rule.builtIn, List.mem_cons, List.not_mem_nil, or_false] at hrule
  rcases hrule with rfl | rfl | rfl | rfl
  · simp only [FontWeight.rule, FontWeight.inspect, hdeclarations]
  · simp only [PseudoClass.rule, PseudoClass.inspect, hrules]
  · simp only [RangeOperator.rule, RangeOperator.inspect, hatRules]
  · have hlines := funext (isSingleLine_plain hletter)
    simp only [SingleLine.rule, SingleLine.inspect, hrules, hlines]

end Sheet

/-! ## Judging violations -/

/-- The line on which a comment ends. -/
def Comment.lastLine (source : String) (k : Comment) : Nat :=
  (Position.counted source (k.span.stop - 1)).line

/-- The directives that end on a line and name a rule or all rules, in document order. -/
def Sheet.allowedOn (sheet : Sheet) (rule : String) (line : Nat) : List Directive :=
  sheet.comments.filterMap fun k =>
    (Directive.parse? k.text).filter fun d =>
      k.lastLine sheet.source = line ∧ (rule ∈ d.rules ∨ "all" ∈ d.rules)

/-- What is left of a violation in the face of the directives that speak for its line. -/
def Violation.judged (sheet : Sheet) (rule : Rule) (v : Violation) : Option Violation :=
  match v.kind with
  | .invalidOption => some v
  | .policy =>
    match sheet.allowedOn rule.name (v.location.line - 1) ++
        sheet.allowedOn rule.name v.location.line with
    | [] => some v
    | d :: _ =>
      if rule.needsReason = true ∧ d.reason = none then
        some { v with
          severity := .warning
          key := "missing-allow-reason"
          message := "Allow directive for '" ++ rule.name ++ "' is missing required reason"
          suggestion := some "Add reason=\"...\" to explain why this exception is necessary" }
      else none

namespace Directive

theorem filter_collect (sheet : Sheet) (rule : String) (line : Nat) :
    ((collect sheet).filter fun (last, d) => last == line && d.covers rule).map Prod.snd =
      sheet.allowedOn rule line := by
  rw [collect, List.filter_filterMap, List.map_filterMap, Sheet.allowedOn]
  refine List.filterMap_congr fun k _ => ?_
  have hline : (Position.ofOffset sheet.source (k.span.stop - 1)).line = k.lastLine sheet.source :=
    Position.line_ofOffset _ _
  rw [hline]
  cases parse? k.text with
  | none => rfl
  | some d => simp [Option.filter_some, covers]

/-- No comment ends before the first line. -/
theorem allowedOn_zero (sheet : Sheet) (rule : String) : sheet.allowedOn rule 0 = [] := by
  simp [Sheet.allowedOn, Comment.lastLine, Position.counted]

/-- The directive that speaks for a line is the first of those that do. -/
theorem find?_collect (sheet : Sheet) (rule : String) (line : Nat) :
    find? (collect sheet) line rule =
      (sheet.allowedOn rule (line - 1) ++ sheet.allowedOn rule line).head? := by
  have hcovering : ∀ l, (((collect sheet).find? fun (last, d) => last == l && d.covers rule).map
      Prod.snd) = (sheet.allowedOn rule l).head? := by
    intro l
    rw [← filter_collect, List.head?_map, List.head?_filter]
  simp only [find?, Option.orElse_eq_orElse, Option.orElse_eq_or, Option.map_or, hcovering,
    List.head?_append]
  by_cases hline : line ≤ 1
  · have hzero : line - 1 = 0 := by omega
    rw [if_pos hline, hzero, allowedOn_zero]
    rfl
  · rw [if_neg hline, hcovering]

end Directive

/-- What a finding comes to is what it comes to in the sheet without directives, judged. -/
theorem Finding.violation?_judged {source : String} {sheet : Sheet}
    (h : Sheet.parse source = .ok sheet) (path : String) (rule : Rule) (severity : Severity)
    (finding : Finding) :
    finding.violation? (SheetFile.ofSheet path sheet) rule.speaker severity =
      (finding.violation? (SheetFile.ofSheet path sheet.plain) rule.speaker severity).bind
        (Violation.judged sheet rule) := by
  cases finding with
  | invalidOption key message => rfl
  | policy offset node key message mild =>
    have hlocation : Location.ofOffset path sheet.plain.source offset =
        Location.ofOffset path sheet.source offset := by
      simp only [Location.ofOffset, Sheet.plain,
        Sheet.ofOffset_unmarked fun c => @Sheet.char_of_mark _ _ h c]
    have hnone : ∀ line, Directive.find? [] line rule.speaker.rule = none := by
      intro line
      simp [Directive.find?]
    simp only [Finding.violation?, SheetFile.ofSheet, hlocation, Sheet.collect_plain, hnone,
      Directive.find?_collect, Option.bind_some, Violation.judged]
    have hname : rule.speaker.rule = rule.name := rfl
    rw [hname]
    cases sheet.allowedOn rule.name _ ++ sheet.allowedOn rule.name _ with
    | nil => rfl
    | cons d _ =>
      simp only [List.head?_cons, Bool.and_eq_true, Option.isNone_iff_eq_none]
      rfl

/-- The violations of a sheet that parses are those found once the first letter of every directive
is changed, so that there are none, each judged by the directives on its line and on the line
before it. -/
theorem violations_judged {source : String} {sheet : Sheet} (h : Sheet.parse source = .ok sheet) :
    (∀ d ∈ sheet.directiveMarks, ∃ c ∈ Located.ofString source, c.offset = d ∧ c.char = 's') ∧
    ∃ plain, Sheet.parse sheet.unmarked = .ok plain ∧ Directive.collect plain = [] ∧
      ∀ (keywords : Keywords), ∀ rule ∈ Rule.builtIn keywords, ∀ path severity options,
        rule.violations severity options (SheetFile.ofSheet path sheet) sheet =
          (rule.violations severity options (SheetFile.ofSheet path plain) plain).filterMap
            (Violation.judged sheet rule) := by
  constructor
  · intro d hd
    obtain ⟨c, hc, rfl⟩ := Sheet.exists_of_mark h hd
    have hs := Sheet.char_of_mark h hc hd
    obtain ⟨rfl, _⟩ := Event.parse_eq_ok_iff.1 h
    exact ⟨c, hc, rfl, hs⟩
  · refine ⟨sheet.plain, Sheet.parse_unmarked h, Sheet.collect_plain sheet, ?_⟩
    intro keywords rule hrule path severity options
    have hcheck : rule.check options sheet.plain = rule.check options sheet := by
      simp only [Rule.check, Sheet.inspect_plain h hrule]
    rw [Rule.violations, Rule.violations, hcheck, List.filterMap_filterMap]
    exact List.filterMap_congr fun finding _ =>
      finding.violation?_judged h path rule severity

/-- Two directives, the second within a block. The first gives no reason. -/
def sampleAllowed : String :=
  "/* sheetlint: allow(all) */\na:x\x7b\x7d\nb:x\x7b/*sheetlint:allow(rule-no-single-line)*/\x7d\nc:x\x7b\x7d"

/-- The lines and keys of what a rule with a primary option reports. -/
def Rule.reports (rule : Rule) (primary : Option String) (sheet : Sheet) : List (Nat × String) :=
  (rule.violations .error ⟨primary.map .string, none⟩ (SheetFile.ofSheet "a.css" sheet) sheet).map
    fun v => (v.location.line, v.key)

theorem violations_judged_sample : ∃ sheet plain, Sheet.parse sampleAllowed = .ok sheet ∧
    Sheet.parse sheet.unmarked = .ok plain ∧ sheet.directiveMarks = [3, 40] ∧
    PseudoClass.rule.reports "focus" plain = [(2, "rejected"), (3, "rejected"), (4, "rejected")] ∧
    PseudoClass.rule.reports "focus" sheet =
      [(2, "missing-allow-reason"), (3, "rejected"), (4, "rejected")] ∧
    SingleLine.rule.reports none plain = [(2, "rejected"), (3, "rejected"), (4, "rejected")] ∧
    SingleLine.rule.reports none sheet = [] ∧
    ∀ rule ∈ Rule.builtIn {}, ∀ path severity options,
      rule.violations severity options (SheetFile.ofSheet path sheet) sheet =
        (rule.violations severity options (SheetFile.ofSheet path plain) plain).filterMap
          (Violation.judged sheet rule) := by
  have hreports : (Sheet.parse sampleAllowed).toOption.any (fun sheet =>
      (Sheet.parse sheet.unmarked).toOption.any fun plain =>
        sheet.directiveMarks = [3, 40] ∧
        PseudoClass.rule.reports "focus" plain = [(2, "rejected"), (3, "rejected"), (4, "rejected")] ∧
        PseudoClass.rule.reports "focus" sheet =
          [(2, "missing-allow-reason"), (3, "rejected"), (4, "rejected")] ∧
        SingleLine.rule.reports none plain = [(2, "rejected"), (3, "rejected"), (4, "rejected")] ∧
        SingleLine.rule.reports none sheet = []) = true := by
    decide +kernel
  cases h : Sheet.parse sampleAllowed with
  | error e => simp [h, Except.toOption] at hreports
  | ok sheet =>
    obtain ⟨plain, hplain, _, hjudged⟩ := (violations_judged h).2
    simp only [h, hplain, Except.toOption, Option.any_some, decide_eq_true_eq] at hreports
    obtain ⟨hmarks, hpseudo, hpseudo', hline, hline'⟩ := hreports
    exact ⟨sheet, plain, rfl, hplain, hmarks, hpseudo, hpseudo', hline, hline', hjudged {}⟩

end SheetPolicy
