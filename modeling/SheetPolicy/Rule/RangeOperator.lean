import SheetPolicy.Rule.Basic
import SheetPolicy.Text.Located

/-!
Spaces after the range operators of media queries, as in `(width >= 600px)`.
-/

namespace SheetPolicy

/-- What should follow a token. -/
inductive SpaceAfter where
  /-- Exactly one space. -/
  | always
  /-- No white space. -/
  | never
deriving DecidableEq

namespace SpaceAfter

def parse : String → Except String SpaceAfter
  | "always" => .ok always
  | "never" => .ok never
  | other => .error ("unknown whitespace expectation \"" ++ other ++ "\"")

/-- How a text breaks the expectation. -/
inductive Fault where
  | expectedSpace
  | rejectedSpace
deriving DecidableEq

def Fault.key : Fault → String
  | expectedSpace => "expected-after"
  | rejectedSpace => "rejected-after"

/-- The character of a text that takes up a byte. -/
def charAt? (text : String) (byte : Nat) : Option Char :=
  ((Located.ofString text).find? fun c => byte < c.stop).map Located.char

/-- What is wrong with what follows a byte offset. The end of the text is never wrong. -/
def fault? (text : String) (boundary : Nat) (expected : SpaceAfter) : Option Fault :=
  match charAt? text boundary, expected with
  | none, _ => none
  | some c, always =>
    if c = ' ' ∧ !(charAt? text (boundary + 1)).any Text.isSpace then none
    else some .expectedSpace
  | some c, never => if Text.isSpace c then some .rejectedSpace else none

end SpaceAfter

namespace RangeOperator

/-- Reads an operator that stands at the start: `>=`, `<=`, `>`, `<` or `=`. -/
def operator? : List Located → Option (List Located)
  | c :: cs =>
    if c.char = '=' then some [c]
    else if c.char = '>' ∨ c.char = '<' then
      match cs with
      | d :: _ => if d.char = '=' then some [c, d] else some [c]
      | [] => some [c]
    else none
  | [] => none

/-- All operators of a text, from left to right. An operator needs a character before it that is
no part of another operator and is neither `>` nor `<`; `before` is that character, if there is
one, and `skip` says how many characters of an operator are still to be passed. -/
def scan (before : Option Char) (skip : Nat) : List Located → List (List Located)
  | [] => []
  | c :: cs =>
    match skip with
    | skip + 1 => scan none skip cs
    | 0 =>
      let here := if before.any fun b => b != '>' && b != '<' then operator? (c :: cs) else none
      match here with
      | some operator => operator :: scan none (operator.length - 1) cs
      | none => scan (some c.char) 0 cs

/-- The operators of the parameters of a media query. -/
def operators (params : String) : List (List Located) :=
  scan none 0 (Located.ofString params)

/-- The byte offset just after an operator. -/
def stopOf (operator : List Located) : Nat :=
  (operator.getLast?.map Located.stop).getD 0

def message : SpaceAfter.Fault → String
  | .expectedSpace => "Expected single space after range operator"
  | .rejectedSpace => "Unexpected whitespace after range operator"

/-- What the rule finds in one at-rule. -/
def findings (expected : SpaceAfter) (head : AtRule) : List Finding :=
  if head.name = "media" then
    (operators head.params.text).filterMap fun operator =>
      (SpaceAfter.fault? head.params.text (stopOf operator) expected).map fun fault =>
        .policy (head.params.sourceOffset (stopOf operator)) .atRule fault.key (message fault)
          false
  else []

def inspect (options : Options) (sheet : Sheet) : List Finding :=
  match options.primaryText?.map SpaceAfter.parse with
  | some (.ok expected) => sheet.atRules.flatMap (findings expected)
  | _ => []

def rule : Rule where
  name := "media-feature-range-operator-space-after"
  code := "SL003"
  description := "Requires a single space or no space after media feature range operators"
  severity := .error
  spec := { primary := [.word "always", .word "never"], secondary := [] }
  inspect := inspect

end RangeOperator

end SheetPolicy
