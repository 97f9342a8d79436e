import SheetPolicy.Text.Blank

/-!
Numbers as values are written: an optional sign, digits with an optional fraction, and an optional
exponent. A unit is no part of a number.
-/

namespace SheetPolicy.Value

/-- What follows an optional sign. -/
def afterSign : List Char → List Char
  | c :: cs => if c = '+' ∨ c = '-' then cs else c :: cs
  | [] => []

/-- The text is nothing, or an exponent and nothing more. -/
def isExponent : List Char → Bool
  | [] => true
  | e :: cs =>
    let digits := afterSign cs
    (e == 'e' || e == 'E') && !digits.isEmpty && digits.all Char.isDigit

/-- The text is a number without a sign. -/
def isUnsigned (cs : List Char) : Bool :=
  let whole := cs.takeWhile Char.isDigit
  match cs.dropWhile Char.isDigit with
  | '.' :: rest =>
    !(rest.takeWhile Char.isDigit).isEmpty && isExponent (rest.dropWhile Char.isDigit)
  | rest => !whole.isEmpty && isExponent rest

/-- The text is a number, apart from blanks around it. -/
def isNumber (value : String) : Bool :=
  isUnsigned (afterSign (Text.trimChars value.toList))

end SheetPolicy.Value
