import Mathlib
import SheetPolicy.Rule.Preset
import SheetPolicy.Proofs.Layout
import SheetPolicy.Proofs.Move

/-!
Walks over a retouched tree. A retouch keeps the shape of a tree, so every walk meets the same nodes in
the same order, each of them retouched (`Retouch.itemsOf_nodes`).
-/

namespace SheetPolicy

/-- All rules, the one on font weights with the given keyword tables. -/
def Rule.builtIn (keywords : Keywords) : List Rule :=
  [FontWeight.rule keywords, PseudoClass.rule, RangeOperator.rule, SingleLine.rule]

namespace Retouch

variable (r : Retouch)

def parent : Parent → Parent
  | .root => .root
  | .rule head => .rule (r.styleRule head)
  | .atRule head => .atRule (r.atRule head)

def item : Item → Item
  | .rule head => .rule (r.styleRule head)
  | .atRule head => .atRule (r.atRule head)
  | .declaration decl => .declaration (r.declaration decl)
  | .comment c => .comment (r.comment c)

@[simp] theorem isAtRuleNamed_parent (p : Parent) (name : String) :
    (r.parent p).isAtRuleNamed name = p.isAtRuleNamed name := by
  cases p <;> rfl

theorem itemsOf_nodes (p : Parent) (nodes : List Node) :
    Node.itemsOf (r.parent p) (r.nodes nodes) =
      (Node.itemsOf p nodes).map (Prod.map r.parent r.item) := by
  induction nodes using Node.forest_induction generalizing p with
  | nil => rfl
  | cons node nodes ihbody ih =>
    have hnode : (r.node node).items (r.parent p) =
        (node.items p).map (Prod.map r.parent r.item) := by
      cases node with
      | rule head body =>
        have hbody : Node.itemsOf (.rule (r.styleRule head)) (r.nodes body) = _ :=
          ihbody (.rule head)
        rw [Retouch.node, Node.items, Node.items, hbody]
        rfl
      | atRule head body =>
        have hbody : Node.itemsOf (.atRule (r.atRule head)) (r.nodes body) = _ :=
          ihbody (.atRule head)
        rw [Retouch.node, Node.items, Node.items, hbody]
        rfl
      | atStatement head => simp [Retouch.node, Node.items, item]
      | declaration decl => simp [Retouch.node, Node.items, item]
      | comment c => simp [Retouch.node, Node.items, item]
    simp only [Retouch.nodes, Node.itemsOf, List.map_append, hnode, ih]

section Sheets

variable {r} {sheet sheet' : Sheet} (h : sheet'.nodes = r.nodes sheet.nodes)
include h

theorem items_eq : sheet'.items = sheet.items.map (Prod.map r.parent r.item) := by
  rw [Sheet.items, h]
  exact r.itemsOf_nodes .root sheet.nodes

/-- A walk that picks some items picks the same ones. -/
theorem filterMap_items {α : Type} {pick : Parent × Item → Option α} {g : α → α}
    (hpick : ∀ x, pick (Prod.map r.parent r.item x) = (pick x).map g) :
    sheet'.items.filterMap pick = (sheet.items.filterMap pick).map g := by
  rw [items_eq h, List.filterMap_map, List.map_filterMap]
  exact List.filterMap_congr fun x _ => hpick x

theorem declarations_eq :
    sheet'.declarations = sheet.declarations.map (Prod.map r.declaration r.parent) :=
  filterMap_items h (by rintro ⟨p, i⟩; cases i <;> rfl)

theorem rules_eq : sheet'.rules = sheet.rules.map r.styleRule :=
  filterMap_items h (by rintro ⟨p, i⟩; cases i <;> rfl)

theorem atRules_eq : sheet'.atRules = sheet.atRules.map r.atRule :=
  filterMap_items h (by rintro ⟨p, i⟩; cases i <;> rfl)

theorem comments_eq : sheet'.comments = sheet.comments.map r.comment :=
  filterMap_items h (by rintro ⟨p, i⟩; cases i <;> rfl)

end Sheets

end Retouch

end SheetPolicy
