import SheetPolicy.Report.Format

/-!
The arguments of the command line.
-/

namespace SheetPolicy.Command

/-- An option: its long name, its letter, and whether a value belongs to it. -/
structure OptionForm where
  name : String
  letter : Option Char
  takesValue : Bool
deriving DecidableEq

/-- What the arguments spell out. -/
inductive Item where
  /-- An option, with its value or, if it takes none, with nothing. -/
  | option (name value : String)
  | word (text : String)
deriving DecidableEq

/-- The argument cannot be an option or the mark that ends the options. -/
def isValue (arg : String) : Bool :=
  !Text.startsWith "-" arg.toList || arg == "-"

/-- Reads letters in a row. The first one that takes a value takes all that follows it, or else the
next argument: then its name is the second result. -/
def letters? (forms : List OptionForm) : List Char → Option (List Item × Option String)
  | [] => some ([], none)
  | c :: cs => do
    let form ← forms.find? fun f => f.letter == some c
    if form.takesValue then
      match cs with
      | [] => some ([], some form.name)
      | '=' :: value => some ([.option form.name (String.ofList value)], none)
      | value => some ([.option form.name (String.ofList value)], none)
    else do
      let (items, waiting) ← letters? forms cs
      some (.option form.name "" :: items, waiting)

/-- Reads a long option without its hyphens, like `letters?`. -/
def longOption? (forms : List OptionForm) (cs : List Char) :
    Option (List Item × Option String) := do
  let form ← forms.find? fun f => f.name.toList == cs.takeWhile (· != '=')
  match cs.dropWhile (· != '='), form.takesValue with
  | [], false => some ([.option form.name ""], none)
  | [], true => some ([], some form.name)
  | _ :: value, true => some ([.option form.name (String.ofList value)], none)
  | _ :: _, false => none

/-- Reads an argument that starts with a hyphen. -/
def options? (forms : List OptionForm) (arg : String) : Option (List Item × Option String) :=
  match arg.toList with
  | '-' :: '-' :: name => longOption? forms name
  | '-' :: cs => letters? forms cs
  | _ => none

/-- Reads arguments up to the first word, and gives the rest with that word in front. -/
def itemsBeforeWord? (forms : List OptionForm) : List String → Option (List Item × List String)
  | [] => some ([], [])
  | arg :: rest =>
    if isValue arg then some ([], arg :: rest)
    else
      match options? forms arg, rest with
      | none, _ => none
      | some (items, none), rest => do
        let (later, words) ← itemsBeforeWord? forms rest
        some (items ++ later, words)
      | some (_, some _), [] => none
      | some (items, some name), value :: rest =>
        if isValue value then do
          let (later, words) ← itemsBeforeWord? forms rest
          some (items ++ .option name value :: later, words)
        else none

/-- Reads all arguments. After two hyphens, all that follows are words. -/
def items? (forms : List OptionForm) : List String → Option (List Item)
  | [] => some []
  | arg :: rest =>
    if arg = "--" then some (rest.map .word)
    else if isValue arg then (items? forms rest).map (.word arg :: ·)
    else
      match options? forms arg, rest with
      | none, _ => none
      | some (items, none), rest => (items? forms rest).map (items ++ ·)
      | some (_, some _), [] => none
      | some (items, some name), value :: rest =>
        if isValue value then (items? forms rest).map (items ++ .option name value :: ·)
        else none

def values (name : String) (items : List Item) : List String :=
  items.filterMap fun
    | .option n value => if n = name then some value else none
    | .word _ => none

def words (items : List Item) : List String :=
  items.filterMap fun
    | .word text => some text
    | .option _ _ => none

/-- The value of an option that may be given once. -/
def once? (name : String) (items : List Item) : Option (Option String) :=
  match values name items with
  | [] => some none
  | [value] => some (some value)
  | _ => none

/-- The value of an option that may be given once, decoded. -/
def decoded? {α : Type} (name : String) (items : List Item) (decode : String → Option α) :
    Option (Option α) := do
  match ← once? name items with
  | none => some none
  | some value => (decode value).map some

/-- A path is not empty. -/
def path? (text : String) : Option String :=
  if text = "" then none else some text

structure CheckSettings where
  path : String
  format : Report.Format
  preset : Option String
  /-- Names of rules, with commas between them. -/
  rules : Option String
  excluded : List String
  failOn : Option Severity
deriving DecidableEq

inductive Action where
  | check (settings : CheckSettings)
  | listRules
  | init (force : Bool) (preset : String)
deriving DecidableEq

inductive Request where
  | help
  | version
  /-- An action, with the configuration file that the arguments name. -/
  | act (config : Option String) (action : Action)
deriving DecidableEq

/-- The options that stand before and after the name of an action. -/
def commonForms : List OptionForm :=
  [⟨"verbose", some 'v', false⟩, ⟨"config", some 'c', true⟩, ⟨"help", some 'h', false⟩]

def checkForms : List OptionForm :=
  commonForms ++ [⟨"format", some 'f', true⟩, ⟨"preset", some 'p', true⟩, ⟨"rules", none, true⟩,
    ⟨"exclude", some 'e', true⟩, ⟨"fail-on", none, true⟩]

def initForms : List OptionForm :=
  commonForms ++ [⟨"force", none, false⟩, ⟨"preset", some 'p', true⟩]

def check? (items : List Item) : Option Action := do
  let path ← match words items with
    | [] => some "."
    | [path] => path? path
    | _ => none
  let format ← decoded? "format" items Report.Format.ofName?
  let preset ← once? "preset" items
  let rules ← once? "rules" items
  let failOn ← decoded? "fail-on" items fun s => (Severity.parse s).toOption
  return .check
    { path, format := format.getD .text, preset, rules, excluded := values "exclude" items, failOn }

def init? (items : List Item) : Option Action := do
  let force ← once? "force" items
  let preset ← once? "preset" items
  if (words items).isEmpty then some (.init force.isSome (preset.getD "recommended")) else none

/-- Reads what follows the name of an action. -/
def action? (name : String) (args : List String) : Option (List Item × Option Action) :=
  match name with
  | "check" => (items? checkForms args).map fun items => (items, check? items)
  | "init" => (items? initForms args).map fun items => (items, init? items)
  | "list-rules" => (items? commonForms args).map fun items =>
      (items, if (words items).isEmpty then some .listRules else none)
  | _ => none

/-- The configuration file that is named on one side of the name of the action: by an option, or
else by the environment. -/
def config? (environment : Option String) (items : List Item) :
    Option (Option String × Option String) := do
  let _ ← once? "verbose" items
  let given ← decoded? "config" items path?
  match given, environment with
  | some path, _ => some (some path, none)
  | none, some path => (path? path).map fun p => (none, some p)
  | none, none => some (none, none)

/-- Reads the arguments. The configuration file that is named after the action wins over the one
that is named before, and both over the one of the environment. Arguments that make no sense have
no reading. -/
def Request.parse? (environment : Option String) (args : List String) : Option Request := do
  let (before, rest) ← itemsBeforeWord? (commonForms ++ [⟨"version", some 'V', false⟩]) args
  if !(values "help" before).isEmpty then return .help
  if !(values "version" before).isEmpty then return .version
  match rest with
  | [] => none
  | "help" :: _ => some .help
  | name :: rest => do
    let (after, action) ← action? name rest
    if !(values "help" after).isEmpty then return .help
    let (late, _) ← config? environment after
    let (early, outside) ← config? environment before
    let action ← action
    return .act (late <|> early <|> outside) action

end SheetPolicy.Command
