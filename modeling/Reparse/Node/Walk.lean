import Reparse.Node.Cursor

/-!
# Walks

A walk meets every node of a tree once, in document order: a node comes before what is below it,
and that before its later siblings. `Node.visits` lists the nodes of a walk; a cursor finds the
same nodes by itself, going down where it can, else across, else across from the nearest node
above that has a later sibling.
-/

namespace Reparse

/-- A node met on a walk, with its depth below the node where the walk began and its field in its
parent. -/
structure Visit where
  depth : Nat
  field : Option FieldId
  node : Node

namespace Visit

/-- The name of the field that the node is stored under. -/
def fieldName? (v : Visit) : Option String := v.field.bind v.node.tree.grammar.fieldName?

end Visit

namespace Node

/-- The visits to `n`, which stands at `depth` under `field`, and to the nodes below it, down to
`levels` levels. -/
def visitsWithin : Nat → Nat → Option FieldId → Node → List Visit
  | 0, _, _, _ => []
  | levels + 1, depth, field, n =>
    ⟨depth, field, n⟩ :: n.entries.flatMap fun (f, c) => visitsWithin levels (depth + 1) f c

/-- The visits of the walk over a node and all nodes below it. -/
def visits (n : Node) : List Visit := visitsWithin n.green.depth 0 none n

end Node

namespace Cursor

/-- Across from `top`, or from the nearest node among `above` that has a later sibling. -/
def acrossFrom? (tree : Tree) (top : Entry) : List Entry → Option Cursor
  | [] => none
  | p :: above =>
    match nextSibling? ⟨tree, top, p :: above⟩ with
    | some c => some c
    | none => acrossFrom? tree p above

variable (c : Cursor)

/-- To the node that a walk meets next. -/
def following? : Option Cursor :=
  match c.firstChild? with
  | some down => some down
  | none => acrossFrom? c.tree c.top c.above

/-- The cursor and those that follow it, at most `count` in all. -/
def walkWithin : Nat → Cursor → List Cursor
  | 0, _ => []
  | count + 1, c => c :: (c.following?.map (walkWithin count)).getD []

/-- The visit that a cursor is at. -/
def visit : Visit := ⟨c.depth, c.field?, c.node⟩

end Cursor

/-- The cursors of the walk over a node and all nodes below it. -/
def Node.walk (n : Node) : List Cursor := Cursor.walkWithin n.green.count (.ofNode n)

end Reparse
