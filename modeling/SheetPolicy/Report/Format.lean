import SheetPolicy.Report.Json
import SheetPolicy.Report.Violation

/-!
Formats in which the result of a run is shown.
-/

namespace SheetPolicy.Report

inductive Format where
  | text
  | json
  | compact
  /-- Reports with the source go to the error stream, and the summary to the output. -/
  | fancy
deriving DecidableEq

def Format.ofName? : String → Option Format
  | "text" => some text
  | "json" => some json
  | "compact" => some compact
  | "fancy" => some fancy
  | _ => none

/-- Texts in colour, for terminals. -/
def coloured (colour : Nat) (text : String) : String :=
  "\x1b[" ++ toString colour ++ "m" ++ text ++ "\x1b[0m"

def severityColour : Severity → Nat
  | .error => 31
  | .warning => 33
  | .info => 34

/-- The summary is red if there are errors, yellow if there are warnings, and else green. -/
def summary (r : Inspection) : String :=
  let colour := if 0 < r.count .error then 31 else if 0 < r.count .warning then 33 else 32
  coloured colour ("Found " ++ toString (r.count .error) ++ " error(s), " ++
    toString (r.count .warning) ++ " warning(s), " ++ toString (r.count .info) ++
    " info(s) in " ++ toString r.filesChecked ++ " file(s)") ++ "\n"

def place (v : Violation) : String :=
  v.location.file ++ ":" ++ toString v.location.line ++ ":" ++ toString v.location.column

/-- A violation over several lines. -/
def paragraph (v : Violation) : String :=
  v.code ++ " " ++ v.rule ++ " at " ++ place v ++ "\n" ++
    "  " ++ coloured (severityColour v.severity) v.severity.name ++ ": " ++ v.message ++ "\n" ++
    ((v.suggestion.map fun s => "  = help: " ++ s ++ "\n").getD "") ++ "\n"

def locationJson (l : Location) : Json :=
  .object [("file", .string l.file), ("line", .number l.line), ("column", .number l.column),
    ("offset", .number l.offset)]

def violationJson (v : Violation) : Json :=
  .object ([("code", .string v.code), ("rule", .string v.rule),
    ("severity", .string v.severity.name), ("kind", .string v.kind.name),
    ("location", locationJson v.location),
    ("node", (v.node.map fun n => .string n.name).getD .null),
    ("message_key", .string v.key), ("message", .string v.message)] ++
    v.suggestion.toList.map fun s => ("suggestion", .object [("message", .string s)]))

def resultJson (r : Inspection) : Json :=
  .object [("files_checked", .number r.filesChecked), ("errors", .number (r.count .error)),
    ("warnings", .number (r.count .warning)), ("infos", .number (r.count .info)),
    ("violations", .array (r.violations.map violationJson))]

/-- A violation with its place, for a reader who has the source at hand. -/
def snippet (v : Violation) : String :=
  v.headline ++ "\n  --> " ++ place v ++ "\n" ++
    (v.suggestion.map fun s => "  help: " ++ s ++ "\n").getD ""

/-- What is shown of a result. -/
structure Shown where
  output : String
  errors : String := ""

/-- Shows a result; `hasSource` says of which violations the source can be read. -/
def render (format : Format) (hasSource : Violation → Bool) (r : Inspection) : Shown :=
  match format with
  | .text => { output := String.join (r.violations.map paragraph) ++ summary r }
  | .json => { output := (resultJson r).pretty 0 ++ "\n" }
  | .compact => { output := String.join (r.violations.map fun v => v.line ++ "\n") }
  | .fancy =>
    let (shown, bare) := r.violations.partition hasSource
    { output := String.join (bare.map fun v => v.line ++ "\n") ++ summary r
      errors := String.join (shown.map snippet) }

end SheetPolicy.Report
