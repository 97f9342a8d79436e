import SheetPolicy.Command.Arguments
import SheetPolicy.Command.Lookup
import SheetPolicy.Linter
import SheetPolicy.Rule.Preset

/-!
Checking the sheets of a directory.
-/

namespace SheetPolicy.Command

/-- The keys under which a configuration sets something for a rule, in order. -/
def configuredKeys (config : Config) : List String :=
  (config.rules.map Prod.fst).mergeSort fun a b => a ≤ b

/-- The rules of a preset and, after them, those that only the configuration names. -/
def presetAndConfigured (preset : Preset) (config : Config) : List ActiveRule :=
  (configuredKeys config).foldl
    (fun rules name =>
      if rules.any fun r => r.rule.name == name then rules
      else rules ++ (Rule.find? name).toList.map fun rule => ⟨rule, {}⟩)
    (preset.rules.map fun (rule, options) => ⟨rule, options⟩)

/-- Removes the element at an index. The last element takes its place. -/
def swapRemove {α : Type} (xs : List α) (i : Nat) : List α :=
  match xs.getLast? with
  | none => []
  | some last => (xs.set i last).dropLast

/-- The named rules. A rule takes its options out of the defaults, if they are still there; names of
no rule are passed over. -/
def namedRules : List (Rule × Options) → List String → List ActiveRule
  | _, [] => []
  | defaults, name :: names =>
    match Rule.find? name with
    | none => namedRules defaults names
    | some rule =>
      match defaults.findIdx? fun d => d.1.name == rule.name with
      | none => ⟨rule, {}⟩ :: namedRules defaults names
      | some i =>
        ⟨rule, (defaults[i]?.map Prod.snd).getD {}⟩ :: namedRules (swapRemove defaults i) names

/-- The names of a list with commas between them. -/
def splitNames (list : String) : List String :=
  (Text.splitOnChar (· == ',') list.toList).map fun cs => String.ofList (Text.trimChars cs)

/-- The linter for a check. -/
def linterFor (w : World) (s : CheckSettings) (config : Config) (preset : Preset) : Linter :=
  let rules := match s.rules with
    | some list => namedRules preset.rules (splitNames list)
    | none => presetAndConfigured preset config
  let plan : Linter.Plan := { root := some s.path, rules, excluded := s.excluded, config }
  plan.build w.workingDirectory

/-- The sheets that a check reads, if it comes to that. -/
def sheets (w : World) (given : Option String) (s : CheckSettings) : List String :=
  match loadConfig w given s.path with
  | .error _ => []
  | .ok config =>
    match (linterFor w s config .recommended).discover w.tree with
    | .ok files => files
    | .error _ => []

/-- Checks a directory. The run fails if some violation is grave enough. -/
def check (w : World) (given : Option String) (s : CheckSettings) : Except String Outcome := do
  let config ← loadConfig w given s.path
  let preset ← Preset.parse ((s.preset <|> config.preset).getD "recommended")
  let linter := linterFor w s config preset
  match linter.inspect w.tree with
  | .error _ => .error "Analysis failed"
  | .ok result =>
    let hasSource (v : Violation) :=
      (w.tree.read? (Path.join linter.root v.location.file)).isSome
    let shown := Report.render s.format hasSource result
    let threshold := (s.failOn <|> config.failOn).getD .error
    .ok { exitCode := if result.hasViolationsAt threshold then 1 else 0
          output := shown.output
          notes := shown.errors }

end SheetPolicy.Command
