import SheetPolicy.Text.Blank

/-!
Keyword tables that rules look things up in.
-/

namespace SheetPolicy

/-- Tables of lower-case words. -/
structure Keywords where
  /-- Keywords that every property takes. -/
  basic : List String := ["initial", "inherit", "unset", "revert", "revert-layer"]
  /-- All that is accepted as the name of a font weight. -/
  fontWeight : List String :=
    ["initial", "inherit", "unset", "revert", "revert-layer", "bolder", "lighter", "bold",
      "100", "200", "300", "400", "500", "600", "700", "800", "900", "normal"]
  /-- Numeric weights that a keyword can stand for. -/
  equivalents : List String := ["400", "700"]
deriving DecidableEq

namespace Keywords

def isBasic (k : Keywords) (word : String) : Bool :=
  k.basic.contains (Text.lower word)

def isFontWeight (k : Keywords) (word : String) : Bool :=
  k.fontWeight.contains (Text.lower word)

/-- The weight has a keyword of the same meaning. The look-up is exact. -/
def hasEquivalent (k : Keywords) (word : String) : Bool :=
  k.equivalents.contains word

end Keywords

end SheetPolicy
