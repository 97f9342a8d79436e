import SheetPolicy.Decimal.Binary64

/-!
The shortest decimal that reads back as a given number: a multiple of the highest power of ten that
has a multiple among the reals which round to the number.
-/

namespace SheetPolicy

/-- The decimal `digits * 10 ^ exponent`. -/
structure Decimal where
  digits : Nat
  exponent : Int
deriving DecidableEq

namespace Decimal

/-- A power of a base; one, if the exponent is negative. -/
def power (base : Nat) (exponent : Int) : Nat :=
  Nat.pow base exponent.toNat

/-- Compares `a * 10 ^ i` with `n * 2 ^ j`. -/
def compareScaled (a : Nat) (i : Int) (n : Nat) (j : Int) : Ordering :=
  compare (a * power 10 i * power 2 (-j)) (n * power 2 j * power 10 (-i))

/-- The decimal is among the reals that round to the size of `x`: those from halfway to the number
below up to halfway to the number above, with both ends if the significand is even. Just above a
power of two the number below is only half as far away. -/
def readsBack (x : Binary64) (d : Decimal) : Bool :=
  let m := x.significand
  let low := if x.fractionField = 0 ∧ 1 < x.exponentField then 4 * m - 1 else 4 * m - 2
  let fromLow := compareScaled d.digits d.exponent low (x.exponent - 2)
  let fromHigh := compareScaled d.digits d.exponent (4 * m + 2) (x.exponent - 2)
  let closed := m % 2 == 0
  (fromLow == .gt || (closed && fromLow == .eq)) && (fromHigh == .lt || (closed && fromHigh == .eq))

/-- The nearer of the two multiples of `10 ^ e` around `x`, among those that read back. The upper
one is taken if both are as near. -/
def onGrid? (x : Binary64) (e : Int) : Option Decimal :=
  let num := x.significand * power 2 x.exponent * power 10 (-e)
  let den := power 2 (-x.exponent) * power 10 e
  let below : Decimal := ⟨num / den, e⟩
  let above : Decimal := ⟨num / den + 1, e⟩
  let nearer := if 2 * (num % den) < den then [below, above] else [above, below]
  nearer.find? (readsBack x)

/-- The shortest decimal for the size of a finite number other than zero. -/
def shortest (x : Binary64) : Decimal :=
  let grids := (List.range 660).map fun i : Nat => (310 : Int) - i
  match grids.findSome? (onGrid? x) with
  | some d => d
  | none =>
    if 0 ≤ x.exponent then ⟨x.significand * power 2 x.exponent, 0⟩
    else ⟨x.significand * power 5 (-x.exponent), x.exponent⟩

/-- The decimal with all its places and no exponent; a whole number ends in `.0`. -/
def positional (d : Decimal) : String :=
  let digits := Nat.toDigits 10 d.digits
  if 0 ≤ d.exponent then
    String.ofList (digits ++ List.replicate d.exponent.toNat '0') ++ ".0"
  else
    let places := (-d.exponent).toNat
    let padded := List.replicate (places + 1 - digits.length) '0' ++ digits
    String.ofList (padded.take (padded.length - places)) ++ "." ++
      String.ofList (padded.drop (padded.length - places))

end Decimal

end SheetPolicy
