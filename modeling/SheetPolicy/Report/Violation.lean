import SheetPolicy.Report.Severity
import SheetPolicy.Sheet.Node
import SheetPolicy.Text.Position

/-!
Violations: what the rules found in a file, where, and how grave it is.
-/

namespace SheetPolicy

structure Location where
  file : String
  line : Nat
  column : Nat
  offset : Nat
deriving DecidableEq

/-- The location of a byte offset of a source. -/
def Location.ofOffset (file source : String) (offset : Nat) : Location :=
  let position := Position.ofOffset source offset
  ⟨file, position.line, position.column, offset⟩

inductive Violation.Kind where
  | policy
  | invalidOption
deriving DecidableEq

namespace Violation.Kind

def name : Violation.Kind → String
  | policy => "policy"
  | invalidOption => "invalid-option"

def ofName? : String → Option Violation.Kind
  | "policy" => some policy
  | "invalid-option" => some invalidOption
  | _ => none

end Violation.Kind

structure Violation where
  code : String
  rule : String
  severity : Severity
  kind : Violation.Kind
  location : Location
  node : Option NodeKind
  key : String
  message : String
  suggestion : Option String
deriving DecidableEq

namespace Violation

/-- The violation on one line. -/
def line (v : Violation) : String :=
  v.location.file ++ ":" ++ toString v.location.line ++ ":" ++ toString v.location.column ++ ": " ++
    v.severity.name ++ " [" ++ v.code ++ "] " ++ v.message

/-- The headline of a report that shows the source. -/
def headline (v : Violation) : String :=
  "[" ++ v.code ++ "] " ++ v.message

/-- The byte range of the source that a report marks: one byte, or none at the end. -/
def mark (v : Violation) (source : String) : Nat × Nat :=
  let offset := min v.location.offset source.utf8ByteSize
  (offset, if offset < source.utf8ByteSize then 1 else 0)

end Violation

/-- The violations of some files. -/
structure Inspection where
  violations : List Violation
  filesChecked : Nat
deriving DecidableEq

namespace Inspection

def count (r : Inspection) (severity : Severity) : Nat :=
  r.violations.countP fun v => v.severity = severity

/-- Some violation is at least as grave. -/
def hasViolationsAt (r : Inspection) (severity : Severity) : Bool :=
  r.violations.any fun v => severity.rank ≤ v.severity.rank

end Inspection

end SheetPolicy
