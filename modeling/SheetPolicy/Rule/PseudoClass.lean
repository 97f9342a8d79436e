import SheetPolicy.Rule.Basic
import SheetPolicy.Selector.Event
import SheetPolicy.Text.Vendor
import SheetPolicy.Value.Dialect

/-!
Only listed pseudo-classes may be used in selectors.
-/

namespace SheetPolicy.PseudoClass

/-- The name of a pseudo-class that is not listed. Pseudo-elements, written with two colons, are
left alone, and vendor marks do not count. -/
def rejectedName? (allowed : List WordList.Entry) (pseudo : String) : Option String :=
  if Text.startsWith "::" pseudo.toList then none
  else
    let name := match pseudo.toList with
      | ':' :: name => String.ofList name
      | _ => pseudo
    if WordList.allows allowed (Text.withoutVendor name) then none else some name

/-- What the rule finds in one selector. One that cannot be read is a warning. -/
def findings (allowed : List WordList.Entry) (head : StyleRule) : List Finding :=
  let text := head.selector.text
  if !Dialect.isStandardSelector text || !Text.contains ":" text.toList then []
  else
    match Selector.parse text with
    | .error _ =>
      [.policy head.selector.offset .rule "parse-error" "Cannot parse selector" true]
    | .ok selectors =>
      (Selector.pseudosOfList selectors).filterMap fun pseudo =>
        (rejectedName? allowed pseudo.value).map fun name =>
          .policy (head.selector.sourceOffset pseudo.index) .rule "rejected"
            ("Unexpected pseudo-class \"" ++ name ++ "\"") false

def inspect (options : Options) (sheet : Sheet) : List Finding :=
  match options.primary.map WordList.ofValue with
  | some (.ok allowed) => sheet.rules.flatMap (findings allowed)
  | _ => []

def rule : Rule where
  name := "selector-pseudo-class-whitelist"
  code := "SL002"
  description := "Allows only the listed pseudo-class selectors"
  severity := .error
  spec :=
    { primary :=
        [.test ValueTest.isWordOrPattern.holds, .listOf [.test ValueTest.isWordOrPattern.holds]]
      secondary := [] }
  inspect := inspect

end SheetPolicy.PseudoClass
