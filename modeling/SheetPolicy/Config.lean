import SheetPolicy.Options.Basic
import SheetPolicy.Report.Severity
import SheetPolicy.Toml.Reader

/-!
Configurations: the preset to start from, where to look for sheets, and what is set for each rule.
-/

namespace SheetPolicy

/-- Where to look for sheets. -/
structure SearchSettings where
  root : String := "."
  excluded : List String := ["**/node_modules/**", "**/vendor/**"]
  included : List String := []
deriving DecidableEq

/-- What a configuration sets for a rule. -/
structure RuleSettings where
  enabled : Option Bool := none
  severity : Option Severity := none
  primary : Option Toml := none
  /-- All other keys, which are the secondary options. -/
  rest : Toml.Table := []

/-- The options that the settings give, if they give any. -/
def RuleSettings.options? (s : RuleSettings) : Option Options :=
  if s.primary.isNone && s.rest.isEmpty then none
  else some ⟨s.primary, if s.rest.isEmpty then none else some s.rest⟩

structure Config where
  preset : Option String := none
  /-- The least severity that makes a run fail. -/
  failOn : Option Severity := none
  search : SearchSettings := {}
  rules : List (String × RuleSettings) := []

namespace Config

def settings? (c : Config) (rule : String) : Option RuleSettings :=
  (c.rules.find? fun entry => entry.1 == rule).map Prod.snd

/-- A rule is enabled unless its settings say otherwise. -/
def isEnabled (c : Config) (rule : String) : Bool :=
  ((c.settings? rule).bind RuleSettings.enabled).getD true

def severity? (c : Config) (rule : String) : Option Severity :=
  (c.settings? rule).bind RuleSettings.severity

def options? (c : Config) (rule : String) : Option Options :=
  (c.settings? rule).bind RuleSettings.options?

/-! Decoding. A value of a wrong kind spoils the whole. -/

/-- Decodes the value of a key that may be missing. -/
def optional {α : Type} (t : Toml.Table) (key : String) (decode : Toml → Option α) :
    Option (Option α) :=
  match t.get? key with
  | none => some none
  | some v => (decode v).map some

def boolean? : Toml → Option Bool
  | .boolean b => some b
  | _ => none

def strings? : Toml → Option (List String)
  | .array elements => elements.mapM Toml.asString?
  | _ => none

def isHollow : Toml → Bool
  | .table entries => entries.isEmpty
  | .array elements => elements.isEmpty
  | _ => false

/-- A severity is its name, or a table with its name as the only key and nothing there. -/
def severityOf? : Toml → Option Severity
  | .string s => Severity.ofName? s
  | .table [(name, v)] => if isHollow v then Severity.ofName? name else none
  | _ => none

/-- Decodes the search settings, from a table or from an array with the values in order. Lists that
are missing are empty. -/
def search? : Toml → Option SearchSettings
  | .table t => do
    let root ← optional t "root" Toml.asString?
    let excluded ← optional t "exclude" strings?
    let included ← optional t "include" strings?
    return ⟨root.getD ".", excluded.getD [], included.getD []⟩
  | .array elements => do
    let root ← (elements[0]?.map Toml.asString?).getD (some ".")
    let excluded ← (elements[1]?.map strings?).getD (some [])
    let included ← (elements[2]?.map strings?).getD (some [])
    return ⟨root, excluded, included⟩
  | _ => none

def ruleSettings? : Toml → Option RuleSettings
  | .table t => do
    let enabled ← optional t "enabled" boolean?
    let severity ← optional t "severity" severityOf?
    let rest := t.filter fun entry =>
      !(["enabled", "severity", "primary"].contains entry.1)
    return ⟨enabled, severity, Toml.Table.get? t "primary", rest⟩
  | _ => none

def rules? : Toml → Option (List (String × RuleSettings))
  | .table t => t.mapM fun (name, v) => (ruleSettings? v).map fun s => (name, s)
  | _ => none

def ofTable? (t : Toml.Table) : Option Config := do
  let preset ← optional t "preset" Toml.asString?
  let failOn ← optional t "fail_on" severityOf?
  let search ← optional t "analyzer" search?
  let rules ← optional t "rules" rules?
  return ⟨preset, failOn, search.getD {}, rules.getD []⟩

/-- Reads a configuration; a text that is none has no reading. -/
def parse? (text : String) : Option Config :=
  (Toml.parse? text).bind ofTable?

end Config

end SheetPolicy
