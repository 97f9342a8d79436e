import SheetPolicy.Report.Directive
import SheetPolicy.Report.Violation

/-!
Findings: what a rule has to say about a sheet, before the file's directives and the severity in
force turn it into violations.
-/

namespace SheetPolicy

inductive Finding where
  /-- The node at the offset breaks the policy. A mild finding is a warning whatever the severity
  of the rule. -/
  | policy (offset : Nat) (node : NodeKind) (key message : String) (mild : Bool)
  /-- The rule's options make no sense. -/
  | invalidOption (key message : String)
deriving DecidableEq

/-- What a report says of the rule that speaks. -/
structure Speaker where
  rule : String
  code : String
  /-- A directive must give a reason to silence the rule. -/
  needsReason : Bool
deriving DecidableEq

/-- The file that a report is about. -/
structure SheetFile where
  /-- The path shown in reports. -/
  path : String
  source : String
  directives : List (Nat × Directive)

def SheetFile.ofSheet (path : String) (sheet : Sheet) : SheetFile :=
  ⟨path, sheet.source, Directive.collect sheet⟩

namespace Finding

/-- The warning that stands in for a finding allowed without a reason. -/
def missingReason (speaker : Speaker) (location : Location) (node : NodeKind) : Violation where
  code := speaker.code
  rule := speaker.rule
  severity := .warning
  kind := .policy
  location := location
  node := some node
  key := "missing-allow-reason"
  message := "Allow directive for '" ++ speaker.rule ++ "' is missing required reason"
  suggestion := some "Add reason=\"...\" to explain why this exception is necessary"

/-- The violation that a finding comes to, if it is not allowed. -/
def violation? (file : SheetFile) (speaker : Speaker) (severity : Severity) :
    Finding → Option Violation
  | .invalidOption key message =>
    some ⟨speaker.code, speaker.rule, severity, .invalidOption, ⟨file.path, 1, 1, 0⟩, none, key,
      message, none⟩
  | .policy offset node key message mild =>
    let location := Location.ofOffset file.path file.source offset
    match Directive.find? file.directives location.line speaker.rule with
    | some directive =>
      if speaker.needsReason && directive.reason.isNone then
        some (missingReason speaker location node)
      else none
    | none =>
      some ⟨speaker.code, speaker.rule, if mild then .warning else severity, .policy, location,
        some node, key, message, none⟩

/-- What a violation says of the finding that it comes from. One that is allowed without a reason
keeps its place under another key. -/
theorem violation?_eq_some {file : SheetFile} {speaker : Speaker} {severity : Severity}
    {finding : Finding} {v : Violation} (h : finding.violation? file speaker severity = some v) :
    v.rule = speaker.rule ∧
      match finding with
      | .invalidOption _ _ => v.kind = .invalidOption ∧ v.location = ⟨file.path, 1, 1, 0⟩
      | .policy offset node key _ _ =>
        v.kind = .policy ∧ v.location = Location.ofOffset file.path file.source offset ∧
          v.node = some node ∧ (v.key = key ∨ v.key = "missing-allow-reason") := by
  cases finding with
  | invalidOption key message =>
    cases h
    exact ⟨rfl, rfl, rfl⟩
  | policy offset node key message mild =>
    simp only [violation?] at h
    split at h
    · split at h
      · cases h
        exact ⟨rfl, rfl, rfl, rfl, .inr rfl⟩
      · cases h
    · cases h
      exact ⟨rfl, rfl, rfl, rfl, .inl rfl⟩

end Finding

end SheetPolicy
