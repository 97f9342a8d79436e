import SheetPolicy.Text.Blank

/-!
How grave a violation is.
-/

namespace SheetPolicy

inductive Severity where
  | info
  | warning
  | error
deriving DecidableEq

namespace Severity

def name : Severity → String
  | info => "info"
  | warning => "warning"
  | error => "error"

/-- Graver severities have higher ranks. -/
def rank : Severity → Nat
  | info => 0
  | warning => 1
  | error => 2

def ofName? : String → Option Severity
  | "info" => some info
  | "warning" => some warning
  | "error" => some error
  | _ => none

/-- Reads a severity in any letter case; otherwise says what was read instead, in lower case. -/
def parse (s : String) : Except String Severity :=
  match ofName? (Text.lower s) with
  | some severity => .ok severity
  | none => .error ("unknown severity \"" ++ Text.lower s ++ "\"")

end Severity

end SheetPolicy
