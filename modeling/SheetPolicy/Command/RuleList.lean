import SheetPolicy.Rule.Preset

/-!
The list of rules and presets.
-/

namespace SheetPolicy.Command

/-- The text with blanks after it up to a width. -/
def padRight (width : Nat) (text : String) : String :=
  text ++ String.ofList (List.replicate (width - text.length) ' ')

def ruleLine (code name description : String) : String :=
  padRight 8 code ++ " " ++ padRight 42 name ++ " " ++ description ++ "\n"

def presetLine (preset : Preset) : String :=
  "  " ++ padRight 12 preset.name ++ " - " ++
    ", ".intercalate (preset.rules.map fun (rule, _) => rule.code) ++ "\n"

def ruleList : String :=
  "Available rules:\n\n" ++ ruleLine "Code" "Name" "Description" ++
    String.ofList (List.replicate 100 '-') ++ "\n" ++
    String.join (Rule.all.map fun rule => ruleLine rule.code rule.name rule.description) ++
    "\nPresets:\n" ++ String.join (Preset.all.map presetLine) ++
    "\nUse --rules to filter specific rules, e.g.:\n" ++
    "  sheetlint check --rules font-weight-notation,rule-no-single-line\n" ++
    "  sheetlint check --rules SL001,SL004\n"

end SheetPolicy.Command
