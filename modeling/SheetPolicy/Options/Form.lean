import SheetPolicy.Options.WordList
import SheetPolicy.Options.Basic
import SheetPolicy.Report.Finding

/-!
Which values an option takes, and what is said of those it does not take.
-/

namespace SheetPolicy

/-- A kind of value that a rule may ask for. -/
inductive ValueTest where
  | isString
  /-- A word, or a pattern that makes sense. -/
  | isWordOrPattern
  | isBoolean
deriving DecidableEq

def ValueTest.holds : ValueTest → Toml → Bool
  | isString, .string _ => true
  | isWordOrPattern, .string s =>
    if WordList.isPattern s then (WordList.Entry.parse? s).isSome else true
  | isBoolean, .boolean _ => true
  | _, _ => false

/-- A form that an option may take. -/
inductive Form where
  | word (text : String)
  | test (holds : Toml → Bool)
  | listOf (elements : List Form)
deriving Inhabited

namespace Form

/-- One of the forms takes the value as a whole. -/
def takes (forms : List Form) (value : Toml) : Bool :=
  forms.any fun
    | word text => value.asString? == some text
    | test holds => holds value
    | listOf _ => false

/-- The forms for elements that the first list form has. -/
def firstList? (forms : List Form) : Option (List Form) :=
  forms.findSome? fun
    | listOf elements => some elements
    | _ => none

/-- What is refused of a value. An array is looked at element by element if one of the forms is a
list, and the first such form decides; any other value is refused as a whole. -/
def refused (forms : List Form) (value : Toml) : List Toml :=
  match value, firstList? forms with
  | .array elements, some inner => elements.filter fun v => !takes inner v
  | v, _ => if takes forms v then [] else [v]

end Form

/-- What is wrong with the options of a rule. -/
inductive OptionProblem where
  | expected
  | unexpected (value : Toml)
  | invalidValue (value : Toml)
  | invalidSecondary (option : String) (value : Toml)
  | unknownName (option : String)

namespace OptionProblem

def key : OptionProblem → String
  | expected => "expected-option"
  | unexpected _ => "unexpected-option"
  | invalidValue _ => "invalid-option-value"
  | invalidSecondary _ _ => "invalid-secondary-value"
  | unknownName _ => "invalid-option-name"

def message (rule : String) : OptionProblem → String
  | expected => "Expected option value for rule \"" ++ rule ++ "\""
  | unexpected v => "Unexpected option value \"" ++ v.display ++ "\" for rule \"" ++ rule ++ "\""
  | invalidValue v => "Invalid option value \"" ++ v.display ++ "\" for rule \"" ++ rule ++ "\""
  | invalidSecondary option v =>
    "Invalid value \"" ++ v.display ++ "\" for option \"" ++ option ++ "\" of rule \"" ++ rule ++
      "\""
  | unknownName option => "Invalid option name \"" ++ option ++ "\" for rule \"" ++ rule ++ "\""

def finding (rule : String) (p : OptionProblem) : Finding :=
  .invalidOption p.key (p.message rule)

end OptionProblem

/-- The forms of a rule's options. -/
structure OptionSpec where
  primary : List Form
  secondary : List (String × List Form)

namespace OptionSpec

/-- What is wrong with a primary value. A rule without one may be switched on by `true`. -/
def primaryProblems (forms : List Form) : Option Toml → List OptionProblem
  | none => if forms.isEmpty then [] else [.expected]
  | some v =>
    if forms.isEmpty then
      match v with
      | .boolean true => []
      | _ => [.unexpected v]
    else (Form.refused forms v).map .invalidValue

def secondaryProblems (spec : List (String × List Form)) : String × Toml → List OptionProblem
  | (option, value) =>
    match spec.find? fun entry => entry.1 == option with
    | none => [.unknownName option]
    | some (_, forms) => (Form.refused forms value).map (.invalidSecondary option)

/-- All that is wrong with the options, in the order in which it is reported. -/
def problems (spec : OptionSpec) (options : Options) : List OptionProblem :=
  primaryProblems spec.primary options.primary ++
    (options.secondary.getD []).flatMap (secondaryProblems spec.secondary)

end OptionSpec

end SheetPolicy
