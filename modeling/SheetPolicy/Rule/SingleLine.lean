import SheetPolicy.Rule.Basic

/-!
Style rules take up more than one line.
-/

namespace SheetPolicy.SingleLine

/-- The source of the rule has no line break. -/
def isSingleLine (sheet : Sheet) (head : StyleRule) : Bool :=
  (sheet.slice head.span).toList.all fun c => c != '\n' && c != '\r'

def inspect (_ : Options) (sheet : Sheet) : List Finding :=
  (sheet.rules.filter (isSingleLine sheet)).map fun head =>
    .policy head.span.start .rule "rejected" "Unexpected single-line rule" false

def rule : Rule where
  name := "rule-no-single-line"
  code := "SL004"
  description := "Forbids rule blocks written on a single line"
  severity := .warning
  spec := { primary := [], secondary := [] }
  inspect := inspect

end SheetPolicy.SingleLine
