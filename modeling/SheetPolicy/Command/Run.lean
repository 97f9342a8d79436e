import SheetPolicy.Command.Check
import SheetPolicy.Command.Init
import SheetPolicy.Command.RuleList

/-!
A run of the command line, from its arguments to its outcome.
-/

namespace SheetPolicy.Command

def usageText : String :=
  "Policy linter for CSS stylesheets\n\n" ++
  "Usage: sheetlint [OPTIONS] <COMMAND>\n\n" ++
  "Commands:\n" ++
  "  check       Run lint checks\n" ++
  "  list-rules  List available rules\n" ++
  "  init        Initialize configuration file\n\n" ++
  "Options:\n" ++
  "  -v, --verbose          Enable verbose output\n" ++
  "  -c, --config <CONFIG>  Path to configuration file\n" ++
  "  -h, --help             Print help\n" ++
  "  -V, --version          Print version\n"

def versionText : String :=
  "sheetlint 0.1.0\n"

def act (w : World) (config : Option String) : Action → Except String Outcome
  | .check settings => check w config settings
  | .listRules => .ok { exitCode := 0, output := ruleList }
  | .init force preset => init w force preset

def run (w : World) (args : List String) : Outcome :=
  match Request.parse? w.environmentConfig args with
  | none => .usage
  | some .help => { exitCode := 0, output := usageText }
  | some .version => { exitCode := 0, output := versionText }
  | some (.act config action) =>
    match act w config action with
    | .ok outcome => outcome
    | .error message => .ofError message

end SheetPolicy.Command
