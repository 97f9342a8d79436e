import SheetPolicy.Sheet.Excerpt

/-!
The tree of a stylesheet: style rules, at-rules, declarations and comments, each with the span of
source it covers. Texts that rules look at are excerpts, so that a place in them can be taken back
to the source.
-/

namespace SheetPolicy

/-- A range of byte offsets, from `start` up to and without `stop`. -/
structure Span where
  start : Nat
  stop : Nat
deriving DecidableEq

/-- What stands before the block of a style rule. -/
structure StyleRule where
  span : Span
  selector : Excerpt
deriving DecidableEq

/-- The name of an at-rule and what stands between the name and its block or end. -/
structure AtRule where
  span : Span
  name : String
  params : Excerpt
deriving DecidableEq

structure Declaration where
  span : Span
  prop : String
  value : Excerpt
  important : Bool
deriving DecidableEq

structure Comment where
  span : Span
  text : String
deriving DecidableEq

inductive Node where
  | rule (head : StyleRule) (body : List Node)
  | atRule (head : AtRule) (body : List Node)
  /-- An at-rule that ends without a block. -/
  | atStatement (head : AtRule)
  | declaration (decl : Declaration)
  | comment (comment : Comment)

/-- The kinds of node that a violation can be about. -/
inductive NodeKind where
  | declaration
  | rule
  | atRule
  | comment
deriving DecidableEq

namespace NodeKind

def name : NodeKind → String
  | declaration => "declaration"
  | rule => "rule"
  | atRule => "at-rule"
  | comment => "comment"

def all : List NodeKind :=
  [declaration, rule, atRule, comment]

def ofName? (s : String) : Option NodeKind :=
  all.find? fun k => k.name == s

end NodeKind

/-- What a node stands directly in. -/
inductive Parent where
  | root
  | rule (head : StyleRule)
  | atRule (head : AtRule)
deriving DecidableEq

/-- The parent is an at-rule of this name, in any letter case. -/
def Parent.isAtRuleNamed : Parent → String → Bool
  | .atRule head, name => Text.sameLetters head.name name
  | _, _ => false

/-- A node without what it contains. -/
inductive Item where
  | rule (head : StyleRule)
  | atRule (head : AtRule)
  | declaration (decl : Declaration)
  | comment (comment : Comment)
deriving DecidableEq

mutual

/-- The node and all that it contains, in document order, each with what it stands in. -/
def Node.items (parent : Parent) : Node → List (Parent × Item)
  | .rule head body => (parent, .rule head) :: Node.itemsOf (.rule head) body
  | .atRule head body => (parent, .atRule head) :: Node.itemsOf (.atRule head) body
  | .atStatement head => [(parent, .atRule head)]
  | .declaration decl => [(parent, .declaration decl)]
  | .comment c => [(parent, .comment c)]

def Node.itemsOf (parent : Parent) : List Node → List (Parent × Item)
  | [] => []
  | node :: nodes => node.items parent ++ Node.itemsOf parent nodes

end

/-- A source with its tree. -/
structure Sheet where
  source : String
  nodes : List Node

namespace Sheet

def items (sheet : Sheet) : List (Parent × Item) :=
  Node.itemsOf .root sheet.nodes

def declarations (sheet : Sheet) : List (Declaration × Parent) :=
  sheet.items.filterMap fun
    | (parent, .declaration decl) => some (decl, parent)
    | _ => none

def rules (sheet : Sheet) : List StyleRule :=
  sheet.items.filterMap fun
    | (_, .rule head) => some head
    | _ => none

def atRules (sheet : Sheet) : List AtRule :=
  sheet.items.filterMap fun
    | (_, .atRule head) => some head
    | _ => none

def comments (sheet : Sheet) : List Comment :=
  sheet.items.filterMap fun
    | (_, .comment c) => some c
    | _ => none

/-- Offset `o` of the source is at the start of a character or at the end. -/
def isBoundary (source : String) (o : Nat) : Bool :=
  o == source.utf8ByteSize || (Located.ofString source).any fun c => c.offset == o

/-- The source within a span; nothing, if the span does not cut the source between characters. -/
def slice (sheet : Sheet) (span : Span) : String :=
  if span.start ≤ span.stop && isBoundary sheet.source span.start &&
      isBoundary sheet.source span.stop then
    Located.text ((Located.ofString sheet.source).filter fun c =>
      span.start ≤ c.offset && c.offset < span.stop)
  else ""

end Sheet

end SheetPolicy
