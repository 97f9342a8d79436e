import SheetPolicy.Sheet.Node
import SheetPolicy.Text.Position

/-!
Directives in comments that allow what a rule would report. After the name of the tool and a colon
a directive reads `allow(rule-name, other-rule) reason="why"`, where the reason may be missing. It
speaks for the line on which its comment ends and for the line after it.
-/

namespace SheetPolicy

structure Directive where
  /-- The rules allowed, in the order written; `all` stands for every rule. -/
  rules : List String
  reason : Option String
deriving DecidableEq

namespace Directive

/-- The reason given after the list of rules: what stands between the first two double quotes. -/
def reasonIn (rest : List Char) : Option String := do
  let after ← Text.afterPrefix? "reason=".toList (Text.trimChars rest)
  let quoted ← Text.afterPrefix? ['"'] (after.dropWhile Text.isBlank)
  let (reason, _) ← Text.splitAtFirst? ['"'] quoted
  return String.ofList reason

/-- Reads the body of a comment as a directive. -/
def parse? (body : String) : Option Directive := do
  let words ← Text.afterPrefix? "sheetlint:".toList (Text.trimChars body.toList)
  let inner ← Text.afterPrefix? "allow(".toList (words.dropWhile Text.isBlank)
  let (list, rest) ← Text.splitAtFirst? [')'] inner
  let names := ((Text.splitOnChar (· == ',') list).map Text.trimChars).filter fun n => !n.isEmpty
  if names.isEmpty then none
  else some ⟨names.map String.ofList, reasonIn rest⟩

def covers (d : Directive) (rule : String) : Bool :=
  d.rules.contains rule || d.rules.contains "all"

/-- The directives of a sheet, in document order, each with the line on which its comment ends. -/
def collect (sheet : Sheet) : List (Nat × Directive) :=
  sheet.comments.filterMap fun c =>
    (parse? c.text).map fun d => ((Position.ofOffset sheet.source (c.span.stop - 1)).line, d)

/-- The directive that speaks for a rule on a line. One that ends on the line before comes before
one that ends on the line itself. -/
def find? (directives : List (Nat × Directive)) (line : Nat) (rule : String) : Option Directive :=
  let covering (l : Nat) := directives.find? fun (last, d) => last == l && d.covers rule
  ((if line ≤ 1 then none else covering (line - 1)) <|> covering line).map Prod.snd

end Directive

end SheetPolicy
