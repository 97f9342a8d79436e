import SheetPolicy.Rule.Basic
import SheetPolicy.Value.Dialect
import SheetPolicy.Value.Keywords
import SheetPolicy.Value.Number
import SheetPolicy.Value.Part

/-!
Font weights are written in one notation: as numbers, or as names where a name exists.
-/

namespace SheetPolicy.FontWeight

inductive Spelling where
  | numeric
  | namedWherePossible
deriving DecidableEq

def Spelling.parse : String → Except String Spelling
  | "numeric" => .ok .numeric
  | "named-where-possible" => .ok .namedWherePossible
  | other => .error ("unknown font-weight notation \"" ++ other ++ "\"")

/-- Where a weight stands. -/
inductive Place where
  /-- It is the whole value of `font-weight`. -/
  | plain
  /-- It is a part of the value of `font`. -/
  | shorthand
deriving DecidableEq

/-- A weight with its byte offset within the value. -/
structure Weight where
  text : String
  offset : Nat
  place : Place
deriving DecidableEq

/-- The part can only be a weight. The word `normal` may also be the style or the variant, so it
is the weight only if no part is a number. -/
def isWeightPart (keywords : Keywords) (hasNumber : Bool) (part : String) : Bool :=
  let isNormal := Text.sameLetters part "normal"
  (isNormal && !hasNumber) || Value.isNumber part || (!isNormal && keywords.isFontWeight part)

/-- The weight that a declaration sets, if it sets one. -/
def weightOf? (keywords : Keywords) (decl : Declaration) : Option Weight :=
  if Text.sameLetters decl.prop "font-weight" then some ⟨decl.value.text, 0, .plain⟩
  else if Text.sameLetters decl.prop "font" then
    let parts := Part.split decl.value.text
    let hasNumber := parts.any fun p => Value.isNumber p.text
    (parts.find? fun p => isWeightPart keywords hasNumber p.text).map fun p =>
      ⟨p.text, p.offset, .shorthand⟩
  else none

/-- The rule has no opinion on the weight. -/
def isExempt (keywords : Keywords) (ignored : List WordList.Entry) (weight : String) : Bool :=
  !Dialect.isStandardValue weight || Dialect.isVariable weight || keywords.isBasic weight ||
    WordList.allows ignored (Text.lower weight)

/-- What is wrong with a weight. -/
inductive Fault where
  | expectedNumber
  | expectedName
  | invalidName (name : String)
deriving DecidableEq

namespace Fault

def key : Fault → String
  | expectedNumber | expectedName => "expected"
  | invalidName _ => "invalid-named"

def message : Fault → String
  | expectedNumber => "Expected numeric font-weight notation"
  | expectedName => "Expected named font-weight notation"
  | invalidName name => "Unexpected invalid font-weight name \"" ++ name ++ "\""

end Fault

/-- What is wrong with a weight under a notation. In `font-face` a weight may be a range of
numbers. -/
def fault? (keywords : Keywords) (inFontFace : Bool) (weight : String) :
    Spelling → Option Fault
  | .numeric =>
    let isNumeric :=
      if inFontFace then (Part.split weight).all fun p => Value.isNumber p.text
      else Value.isNumber weight
    if isNumeric then none else some .expectedNumber
  | .namedWherePossible =>
    if Value.isNumber weight then
      if keywords.hasEquivalent weight then some .expectedName else none
    else if keywords.isFontWeight weight || Text.sameLetters weight "normal" then none
    else some (.invalidName weight)

/-- What the rule finds in one declaration. -/
def finding? (keywords : Keywords) (expected : Spelling) (ignored : List WordList.Entry) :
    Declaration × Parent → Option Finding
  | (decl, parent) => do
    let weight ← weightOf? keywords decl
    if isExempt keywords ignored weight.text then none
    else
      let fault ← fault? keywords (parent.isAtRuleNamed "font-face") weight.text expected
      some (.policy (decl.value.sourceOffset weight.offset) .declaration fault.key fault.message
        false)

/-- The values to ignore that the options list. -/
def ignoredBy (options : Options) : Except WordList.Error (List WordList.Entry) :=
  match options.secondary? "ignore-values" with
  | none => .ok []
  | some value => WordList.ofValue value

def inspect (keywords : Keywords) (options : Options) (sheet : Sheet) : List Finding :=
  match (options.primaryText?.getD "" |> Spelling.parse), ignoredBy options with
  | .ok expected, .ok ignored => sheet.declarations.filterMap (finding? keywords expected ignored)
  | _, _ => []

/-- The rule, with the keyword tables that it goes by. -/
def rule (keywords : Keywords) : Rule where
  name := "font-weight-notation"
  code := "SL001"
  description := "Requires numeric or named (where possible) font-weight values"
  severity := .warning
  spec :=
    { primary := [.word "numeric", .word "named-where-possible"]
      secondary :=
        [("ignore-values",
          [.test ValueTest.isWordOrPattern.holds,
            .listOf [.test ValueTest.isWordOrPattern.holds]])] }
  inspect := inspect keywords

end SheetPolicy.FontWeight
