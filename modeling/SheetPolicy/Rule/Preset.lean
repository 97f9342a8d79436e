import SheetPolicy.Rule.FontWeight
import SheetPolicy.Rule.PseudoClass
import SheetPolicy.Rule.RangeOperator
import SheetPolicy.Rule.SingleLine

/-!
All rules, and the presets that switch some of them on.
-/

namespace SheetPolicy

namespace Rule

def all : List Rule :=
  [FontWeight.rule {}, PseudoClass.rule, RangeOperator.rule, SingleLine.rule]

/-- Finds a rule by its name, or by its code in any letter case. -/
def find? (name : String) : Option Rule :=
  all.find? fun rule => rule.name == name || Text.sameLetters rule.code name

end Rule

inductive Preset where
  | recommended
  | strict
  | minimal
deriving DecidableEq

namespace Preset

def all : List Preset :=
  [recommended, strict, minimal]

def name : Preset → String
  | recommended => "recommended"
  | strict => "strict"
  | minimal => "minimal"

def parse (s : String) : Except String Preset :=
  match all.find? fun p => p.name == s with
  | some p => .ok p
  | none =>
    .error ("unknown preset \"" ++ s ++ "\" (expected recommended, strict or minimal)")

/-- The pseudo-classes that the strict preset lists. -/
def strictPseudoClasses : List String :=
  ["active", "checked", "default", "disabled", "empty", "enabled", "first-child",
    "first-of-type", "focus", "focus-visible", "focus-within", "has", "hover", "invalid", "is",
    "last-child", "last-of-type", "link", "not", "only-child", "only-of-type",
    "placeholder-shown", "required", "root", "target", "valid", "visited", "where", "/^nth-/"]

/-- Options with only a primary value. -/
def primaryOnly (value : Toml) : Options :=
  { primary := some value }

def recommendedRules : List (Rule × Options) :=
  [(FontWeight.rule {}, primaryOnly (.string "numeric")),
    (RangeOperator.rule, primaryOnly (.string "always"))]

/-- The rules of a preset with their options. -/
def rules : Preset → List (Rule × Options)
  | recommended => recommendedRules
  | strict =>
    recommendedRules ++
      [(PseudoClass.rule, primaryOnly (.array (strictPseudoClasses.map .string))),
        (SingleLine.rule, primaryOnly (.boolean true))]
  | minimal => [(FontWeight.rule {}, primaryOnly (.string "named-where-possible"))]

end Preset

end SheetPolicy
