import SheetPolicy.Command.World
import SheetPolicy.Rule.Preset
import SheetPolicy.Toml.Writer

/-!
Writing a configuration file to start from.
-/

namespace SheetPolicy.Command

def configName : String := "sheetlint.toml"

def configHeader : String :=
  "# sheetlint configuration\n" ++
  "#\n" ++
  "# [analyzer] root / exclude / include control which stylesheets are read.\n" ++
  "# Each [rules.<name>] table may set:\n" ++
  "#   enabled  = false          # turn the rule off\n" ++
  "#   severity = \"warning\"      # override the default severity\n" ++
  "#   primary  = ...            # the rule's primary option\n" ++
  "#   <key>    = ...            # secondary options, e.g. ignore-values = [\"/^light/\"]\n" ++
  "#\n" ++
  "# Silence a single line with:\n" ++
  "#   /* sheetlint: allow(rule-name) reason=\"why\" */\n" ++
  "\n"

/-- A table under its header. -/
def tableText (path : List String) (entries : Toml.Table) : String :=
  "[" ++ ".".intercalate (path.map Toml.writeKey) ++ "]\n" ++
    String.join ((Toml.writeEntries entries).map (· ++ "\n"))

/-- The settings of a rule as a preset has them. -/
def presetSettings (options : Options) : Toml.Table :=
  let settings := Toml.Table.ofEntries [("enabled", .boolean true)]
  let settings := (options.primary.map fun v => settings.insert "primary" v).getD settings
  (options.secondary.getD []).foldl (fun t entry => t.insert entry.1 entry.2) settings

/-- The configuration file for a preset, with its tables in order of their names. -/
def template (preset : Preset) : String :=
  let excluded := ["**/node_modules/**", "**/vendor/**", "**/dist/**"]
  let search := tableText ["analyzer"] [("exclude", .array (excluded.map .string))]
  let rules := preset.rules.mergeSort fun a b => a.1.name ≤ b.1.name
  configHeader ++ "preset = " ++ (Toml.string preset.name).write ++ "\n\n" ++
    "\n".intercalate (search :: rules.map fun (rule, options) =>
      tableText ["rules", rule.name] (presetSettings options))

def initMessage : String :=
  "Created " ++ configName ++ "\n\nNext steps:\n  1. Edit " ++ configName ++
    " to configure rules\n  2. Run: sheetlint check\n"

/-- Writes the configuration file into the working directory. Only by force is one written over. -/
def init (w : World) (force : Bool) (presetName : String) : Except String Outcome := do
  let shown := "./" ++ configName
  let path := w.absolute configName
  if w.tree.exists? path && !force then
    throw ("Configuration file already exists at " ++ shown ++ ". Use --force to overwrite.")
  let preset ← Preset.parse presetName
  if w.tree.hasDirectory path then throw ("Failed to write " ++ shown)
  return { exitCode := 0, output := initMessage, written := [(path, template preset)] }

end SheetPolicy.Command
