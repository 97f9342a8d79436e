/-!
Selectors as trees: a list of selectors, each a list of components, where some pseudo-classes take
a list of selectors as their argument.
-/

namespace SheetPolicy.Selector

inductive Kind where
  | tag
  | universal
  | className
  | idName
  | attribute
  | nesting
  | combinator
  | pseudo
deriving DecidableEq

/-- A unit of a selector as it is written, with the byte index at which it starts. A combinator
starts where the blanks before it do. -/
structure Simple where
  kind : Kind
  value : String
  index : Nat
deriving DecidableEq

inductive Component where
  | simple (unit : Simple)
  /-- A pseudo-class with selectors in parentheses. -/
  | applied (pseudo : Simple) (arguments : List (List Component))

/-- The unit without its arguments. -/
def Component.head : Component → Simple
  | .simple unit => unit
  | .applied pseudo _ => pseudo

/-- The index at which a selector starts. -/
def startIndex (components : List Component) : Nat :=
  (components.head?.map fun c => c.head.index).getD 0

mutual

/-- The pseudo-classes and pseudo-elements of a component, those of its arguments included. -/
def Component.pseudos : Component → List Simple
  | .simple unit => if unit.kind = .pseudo then [unit] else []
  | .applied pseudo arguments => pseudo :: pseudosOfList arguments

def pseudosOf : List Component → List Simple
  | [] => []
  | c :: cs => c.pseudos ++ pseudosOf cs

/-- All pseudo-classes and pseudo-elements of a list of selectors, from left to right. -/
def pseudosOfList : List (List Component) → List Simple
  | [] => []
  | s :: ss => pseudosOf s ++ pseudosOfList ss

end

/-- Why a text is no list of selectors, with the byte offset to blame. -/
inductive Error where
  | emptySelector (offset : Nat)
  | expectedName (offset : Nat)
  | unclosed (offset : Nat)
  | unexpectedCharacter (char : Char) (offset : Nat)
deriving DecidableEq

def Error.message : Error → String
  | .emptySelector o => s!"Expected a selector at offset {o}"
  | .expectedName o => s!"Expected a name at offset {o}"
  | .unclosed o => s!"Unclosed bracket at offset {o}"
  | .unexpectedCharacter c o => s!"Unexpected character '{c}' at offset {o}"

end SheetPolicy.Selector
