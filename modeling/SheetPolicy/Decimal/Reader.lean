import SheetPolicy.Decimal.Binary64
import SheetPolicy.Text.Digits

/-!
Decimal numbers as text: an optional sign, digits with an optional point among or around them, and
an optional exponent; or a sign and one of the words for infinity and for no number.
-/

namespace SheetPolicy.Binary64

/-- Splits off a sign: whether it is a minus, and what follows. -/
def splitSign : List Char → Bool × List Char
  | '-' :: cs => (true, cs)
  | '+' :: cs => (false, cs)
  | cs => (false, cs)

/-- Reads what follows the digits: nothing, or an exponent. -/
def exponentOfText? : List Char → Option Int
  | [] => some 0
  | e :: cs =>
    let (isMinus, digits) := splitSign cs
    if (e == 'e' || e == 'E') && !digits.isEmpty && digits.all Char.isDigit then
      some (if isMinus then -(Text.numberIn 10 digits : Int) else Text.numberIn 10 digits)
    else none

/-- Reads a number without a sign. -/
def magnitudeOfText? (cs : List Char) : Option Binary64 :=
  if cs.map Char.toLower ∈ ["inf".toList, "infinity".toList] then some infinity
  else if cs.map Char.toLower = "nan".toList then some nan
  else
    let whole := cs.takeWhile Char.isDigit
    let (fraction, rest) := match cs.dropWhile Char.isDigit with
      | '.' :: after => (after.takeWhile Char.isDigit, after.dropWhile Char.isDigit)
      | rest => ([], rest)
    if (whole ++ fraction).isEmpty then none
    else (exponentOfText? rest).map fun e =>
      ofDecimal (Text.numberIn 10 (whole ++ fraction)) (e - fraction.length)

/-- Reads a number, rounded to the nearest. -/
def ofText? (text : String) : Option Binary64 :=
  let (isMinus, cs) := splitSign text.toList
  (magnitudeOfText? cs).map fun x => if isMinus then x.negate else x

end SheetPolicy.Binary64
