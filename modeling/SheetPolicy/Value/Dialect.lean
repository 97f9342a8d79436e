import SheetPolicy.Text.Blank

/-!
Marks of other dialects. Values and selectors that a preprocessor or a template engine has still to
expand are not in standard form, and no rule has an opinion on them.
-/

namespace SheetPolicy.Dialect

def hasInterpolation (cs : List Char) : Bool :=
  Text.contains "#\x7b" cs || Text.contains "@\x7b" cs || Text.contains "$(" cs

/-- What follows one leading operator, as in `-$width`. -/
def withoutOperator : List Char → List Char
  | c :: cs => if c = '-' ∨ c = '+' ∨ c = '*' ∨ c = '/' then cs else c :: cs
  | [] => []

/-- A variable of a namespace, as in `theme.$width`: the first `.$` does not start the value. -/
def hasNamespacedVariable (cs : List Char) : Bool :=
  match Text.splitAtFirst? ".$".toList cs with
  | some (before, _) => !before.isEmpty
  | none => false

/-- The value has no variable, interpolation or placeholder of another dialect. -/
def isStandardValue (value : String) : Bool :=
  let cs := value.toList
  let bare := withoutOperator cs
  !(Text.startsWith "$" bare || hasNamespacedVariable cs || Text.startsWith "@" bare ||
    hasInterpolation bare || Text.contains "__MSG_" cs)

/-- The selector has no placeholder, mixin, nested property, template tag or line comment of
another dialect. -/
def isStandardSelector (selector : String) : Bool :=
  let cs := selector.toList
  !(hasInterpolation cs || Text.startsWith "%" cs || Text.endsWith ":" cs ||
    Text.contains ":extend" cs ||
    (Text.endsWith ")" cs && (!Text.contains ":" cs || Text.contains "(@" cs)) ||
    Text.contains "<%" cs || Text.contains "%>" cs || Text.contains "//" cs)

/-- The value is a reference to a custom property. -/
def isVariable (value : String) : Bool :=
  Text.sameLetters (String.ofList (value.toList.take 4)) "var("

end SheetPolicy.Dialect
