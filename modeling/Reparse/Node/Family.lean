import Reparse.Node.Basic

/-!
# Parents and siblings

Nodes do not know their parents. The parent of a node is found by a search from the root that
follows only those children that cover the node; everything sideways goes through the parent.
-/

namespace Reparse

namespace Node

/-- The parent of `target` among `ancestor` and the nodes below it, in document order, searching
at most `levels` levels down. -/
def parentWithin? (target : Node) : Nat → Node → Option Node
  | 0, _ => none
  | levels + 1, ancestor =>
    ancestor.children.findSome? fun child =>
      if child == target then some ancestor
      else if child.startByte ≤ target.startByte ∧ target.stopByte ≤ child.stopByte then
        parentWithin? target levels child
      else none

variable (n : Node)

/-- The node that has `n` as a child; the root has no parent. -/
def parent? : Option Node :=
  let root := n.tree.rootNode
  if n == root then none else parentWithin? n root.green.depth root

/-- The parent of `n` and the number of `n` among its children. -/
def standing? : Option (Node × Nat) :=
  n.parent?.bind fun p => (p.children.findIdx? (· == n)).map fun index => (p, index)

/-- The number of siblings before the node, 0 for the root. -/
def childIndex : Nat := (n.standing?.map (·.2)).getD 0

/-- The name of the field that the node is stored under in its parent. -/
def fieldName? : Option String := n.parent?.bind fun p => p.fieldNameForChild? n.childIndex

/-- The sibling after the node. -/
def nextSibling? : Option Node := n.standing?.bind fun (p, index) => p.child? (index + 1)

/-- The sibling before the node. -/
def prevSibling? : Option Node :=
  n.standing?.bind fun (p, index) => if index = 0 then none else p.child? (index - 1)

/-- The nearest named sibling after the node. -/
def nextNamedSibling? : Option Node :=
  n.standing?.bind fun (p, index) => (p.children.drop (index + 1)).find? (·.isNamed)

/-- The nearest named sibling before the node. -/
def prevNamedSibling? : Option Node :=
  n.standing?.bind fun (p, index) => ((p.children.take index).filter (·.isNamed)).getLast?

end Node

end Reparse
