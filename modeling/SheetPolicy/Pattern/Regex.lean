import SheetPolicy.Pattern.CharSet

/-!
Regular expressions and whether they match somewhere in a text.

An expression is run on all starting places at once: it takes the set of places between characters
that are reached before it to the set of places reached after it. A set of places is a list of
Booleans, one more than there are characters.

Only whether there is a match is kept. Which match comes first, and what the groups of an expression
take, is left out, as nothing asks for it.
-/

namespace SheetPolicy.Pattern

/-- A condition on a place between two characters. Word characters are those of ASCII alone where
`ascii` says so. -/
inductive Assertion where
  | textStart
  | textEnd
  /-- With `crlf`, carriage returns end lines too, and no line ends inside a pair of both. -/
  | lineStart (crlf : Bool)
  | lineEnd (crlf : Bool)
  | wordBoundary (ascii : Bool)
  | notWordBoundary (ascii : Bool)
  | wordStart (ascii : Bool)
  | wordEnd (ascii : Bool)
  | wordStartHalf (ascii : Bool)
  | wordEndHalf (ascii : Bool)
deriving DecidableEq

/-- The character is there and is a word character. -/
def isWordAt (ascii : Bool) : Option Char → Bool
  | none => false
  | some c => (if ascii then CharSet.asciiWord else CharSet.word).mem c

/-- The condition holds between `before` and `after`. -/
def Assertion.holds (before after : Option Char) : Assertion → Bool
  | textStart => before.isNone
  | textEnd => after.isNone
  | lineStart false => before.isNone || before == some '\n'
  | lineStart true =>
    before.isNone || before == some '\n' || (before == some '\r' && after != some '\n')
  | lineEnd false => after.isNone || after == some '\n'
  | lineEnd true =>
    after.isNone || after == some '\r' || (after == some '\n' && before != some '\r')
  | wordBoundary a => isWordAt a before != isWordAt a after
  | notWordBoundary a => isWordAt a before == isWordAt a after
  | wordStart a => !isWordAt a before && isWordAt a after
  | wordEnd a => isWordAt a before && !isWordAt a after
  | wordStartHalf a => !isWordAt a before
  | wordEndHalf a => !isWordAt a after

inductive Regex where
  | empty
  | chars (set : CharSet)
  | assertion (a : Assertion)
  | seq (a b : Regex)
  | alt (a b : Regex)
  /-- At least `least` and, if there is a bound, at most `most` times. -/
  | loop (body : Regex) (least : Nat) (most : Option Nat)
deriving DecidableEq

namespace Regex

/-- The characters before and after each place of a text. -/
def gaps (before : Option Char) : List Char → List (Option Char × Option Char)
  | [] => [(before, none)]
  | c :: cs => (before, some c) :: gaps (some c) cs

/-- Applies `f` at most `n` times, up to where it changes nothing. -/
def settle (f : List Bool → List Bool) : Nat → List Bool → List Bool
  | 0, places => places
  | n + 1, places =>
    let places' := f places
    if places' = places then places else settle f n places'

/-- The places reached after the expression from those reached before it. A loop needs no more
rounds than there are places: a round that takes nothing can be left out or done again. -/
def run (text : List Char) : Regex → List Bool → List Bool
  | empty, places => places
  | chars set, places => false :: places.zipWith (fun live c => live && set.mem c) text
  | assertion a, places =>
    places.zipWith (fun live gap => live && a.holds gap.1 gap.2) (gaps none text)
  | seq a b, places => run text b (run text a places)
  | alt a b, places => (run text a places).zipWith or (run text b places)
  | loop body least most, places =>
    let bound := text.length + 1
    let more := (most.map fun m => min (m - least) bound).getD bound
    settle (fun p => p.zipWith or (run text body p)) more
      (settle (run text body) (min least bound) places)

/-- The expression matches a part of the text. -/
def isMatch (r : Regex) (text : String) : Bool :=
  (run text.toList r (List.replicate (text.toList.length + 1) true)).any id

end Regex

end SheetPolicy.Pattern
