import SheetPolicy.Config
import SheetPolicy.Files.Search
import SheetPolicy.Rule.Basic
import SheetPolicy.Sheet.Event

/-!
Linters: rules with their options, run over one sheet or over all sheets of a file tree.
-/

namespace SheetPolicy

/-- A rule with the options that it runs with. -/
structure ActiveRule where
  rule : Rule
  options : Options

/-- Why an inspection has no result. -/
inductive LintError where
  /-- A file holds no text. -/
  | notText
  | unparsable (path : String) (error : ParseError) (position : Position)
  /-- A pattern for paths makes no sense. -/
  | badPattern

def LintError.message : LintError → String
  | .notText => "IO error: stream did not contain valid UTF-8"
  | .unparsable path error position =>
    "Parse error in " ++ path ++ ": " ++ error.message ++ " (line " ++ toString position.line ++
      ", column " ++ toString position.column ++ ")"
  | .badPattern => "Invalid glob pattern"

structure Linter where
  /-- An absolute path. -/
  root : String
  rules : List ActiveRule
  excluded : List String
  included : List String
  config : Config
  /-- A sheet that cannot be read ends the inspection; otherwise it is passed over. -/
  failOnParseError : Bool

/-- What a linter is built from. -/
structure Linter.Plan where
  root : Option String := none
  rules : List ActiveRule := []
  excluded : List String := []
  included : List String := []
  config : Config := {}
  failOnParseError : Bool := false

/-- Builds a linter: rules that the configuration switches off are dropped, and its options are
laid over those of the others. -/
def Linter.Plan.build (plan : Linter.Plan) (workingDirectory : String) : Linter :=
  let excluded := plan.excluded ++ plan.config.search.excluded
  { root := Path.join workingDirectory (plan.root.getD plan.config.search.root)
    rules := (plan.rules.filter fun r => plan.config.isEnabled r.rule.name).map fun r =>
      match plan.config.options? r.rule.name with
      | some options => { r with options := options.layeredOver r.options }
      | none => r
    excluded := if excluded.isEmpty then ({} : SearchSettings).excluded else excluded
    included := plan.included ++ plan.config.search.included
    config := plan.config
    failOnParseError := plan.failOnParseError }

/-- Orders violations by file, line and column. -/
def Violation.comesBefore (a b : Violation) : Bool :=
  match Path.compare a.location.file b.location.file with
  | .lt => true
  | .gt => false
  | .eq =>
    if a.location.line = b.location.line then a.location.column ≤ b.location.column
    else a.location.line < b.location.line

namespace Linter

/-- The options with which a rule runs. -/
def optionsOf? (l : Linter) (rule : String) : Option Options :=
  (l.rules.find? fun r => r.rule.name == rule).map ActiveRule.options

/-- The severity in force for a rule. -/
def severityOf (l : Linter) (rule : Rule) : Severity :=
  (l.config.severity? rule.name).getD rule.severity

/-- The violations of all rules in one source, in order of place; those at one place are in order
of the rules. -/
def lint (l : Linter) (path source : String) : Except LintError (List Violation) :=
  match Sheet.parse source with
  | .error e => .error (.unparsable path e (Position.ofOffset source e.offset))
  | .ok sheet =>
    let file := SheetFile.ofSheet (Path.relativeTo l.root path) sheet
    let found := l.rules.flatMap fun r =>
      r.rule.violations (l.severityOf r.rule) r.options file sheet
    .ok (found.mergeSort Violation.comesBefore)

/-- A path is left out if a pattern matches it, or if it contains the pattern without its double
stars. -/
def isExcluded (l : Linter) (path : String) : Bool :=
  l.excluded.any fun pattern =>
    let bare := Text.removeAll "**".toList pattern.toList
    (Glob.parse? pattern).any (Glob.isMatch · path.toList) ||
      (!bare.isEmpty && Text.contains (String.ofList bare) path.toList)

/-- Keeps the first of paths that name the same steps, and orders them. -/
def ordered (paths : List String) : List String :=
  let distinct := paths.foldl (fun kept path =>
    if kept.any fun p => Path.steps p == Path.steps path then kept else kept ++ [path]) []
  distinct.mergeSort fun a b => Path.compare a b != .gt

/-- The patterns that sheets are looked for by. -/
def patterns (l : Linter) : List String :=
  if l.included.isEmpty then [l.root ++ "/**/*.css"]
  else l.included.map fun pattern => l.root ++ "/" ++ pattern

/-- The sheets of a file tree. -/
def discover (l : Linter) (tree : FileTree) : Except LintError (List String) :=
  match l.patterns.mapM (Search.files? tree) with
  | none => .error .badPattern
  | some found => .ok (ordered (found.flatten.filter fun path => !l.isExcluded path))

/-- Adds the violations of one file to a result. -/
def inspectFile (l : Linter) (tree : FileTree) (result : Inspection) (path : String) :
    Except LintError Inspection :=
  match tree.read? path with
  | none => .error .notText
  | some source =>
    match l.lint path source with
    | .ok violations => .ok ⟨result.violations ++ violations, result.filesChecked + 1⟩
    | .error e => if l.failOnParseError then .error e else .ok result

/-- The violations of the files at some paths. -/
def inspectAll (l : Linter) (tree : FileTree) (files : List String) :
    Except LintError Inspection := do
  let result ← files.foldlM (l.inspectFile tree) ⟨[], 0⟩
  return { result with violations := result.violations.mergeSort Violation.comesBefore }

/-- The violations of all sheets of a file tree. -/
def inspect (l : Linter) (tree : FileTree) : Except LintError Inspection := do
  let files ← l.discover tree
  l.inspectAll tree files

end Linter

end SheetPolicy
