import SheetPolicy.Options.Form
import SheetPolicy.Report.Finding

/-!
Rules. A rule says which options it takes and what it finds in a sheet under given options. It
looks at a sheet only if nothing is wrong with the options.
-/

namespace SheetPolicy

structure Rule where
  name : String
  code : String
  description : String
  /-- The severity in force unless the configuration sets another. -/
  severity : Severity
  spec : OptionSpec
  /-- What the rule finds under options that pass its specification. -/
  inspect : Options → Sheet → List Finding

namespace Rule

/-- A rule that is an error by default can be silenced only with a reason. -/
def needsReason (rule : Rule) : Bool :=
  rule.severity = .error

def speaker (rule : Rule) : Speaker :=
  ⟨rule.name, rule.code, rule.needsReason⟩

/-- What the rule has to say: the problems of its options, or else what it finds. -/
def check (rule : Rule) (options : Options) (sheet : Sheet) : List Finding :=
  match rule.spec.problems options with
  | [] => rule.inspect options sheet
  | problems => problems.map (OptionProblem.finding rule.name)

/-- The violations of one rule in a file, in the order found. -/
def violations (rule : Rule) (severity : Severity) (options : Options) (file : SheetFile)
    (sheet : Sheet) : List Violation :=
  (rule.check options sheet).filterMap (Finding.violation? file rule.speaker severity)

end Rule

end SheetPolicy
