import Reparse.Node.Basic

/-!
# Cursors

A cursor walks over a tree and remembers the way from the node it was made for down to the node
it stands on, so that the parent and the siblings need no search. A move that is not possible
gives nothing and changes nothing.
-/

namespace Reparse

/-- A node on a cursor's way: what it is, where it starts, and its number and field in its
parent. -/
structure Cursor.Entry where
  green : Green
  start : Length
  index : Nat
  field : Option FieldId

/-- The node a cursor stands on and the nodes above it, nearest first. -/
structure Cursor where
  tree : Tree
  top : Cursor.Entry
  above : List Cursor.Entry

namespace Cursor

/-- The cursor that stands on `n` and cannot leave it upwards or sideways. -/
def ofNode (n : Node) : Cursor := ⟨n.tree, ⟨n.green, n.start, 0, none⟩, []⟩

variable (c : Cursor)

/-- The node the cursor stands on. -/
def node : Node := ⟨c.tree, c.top.green, c.top.start⟩

/-- The field of that node in its parent, nothing for the node that the cursor was made for. -/
def field? : Option FieldId := c.top.field

/-- The name of that field. -/
def fieldName? : Option String := c.field?.bind c.tree.grammar.fieldName?

/-- The number of levels below the node that the cursor was made for. -/
def depth : Nat := c.above.length

/-- The child numbers that lead from the node that the cursor was made for to the node it stands
on. -/
def path : List Nat := (c.top :: c.above).dropLast.reverse.map (·.index)

/-- Up to the parent. -/
def parent? : Option Cursor :=
  match c.above with
  | [] => none
  | p :: above => some { c with top := p, above := above }

/-- Down to the first child that satisfies `p`, given its number and its stop. -/
def childWhere? (p : Nat → Length → Bool) : Option Cursor :=
  let places := (Green.layOut c.top.start c.top.green.children).zipIdx
  (places.find? fun ((child, start), index) => p index (start + child.node.label.size)).map
    fun ((child, start), index) =>
      { c with top := ⟨child.node, start, index, child.field⟩, above := c.top :: c.above }

/-- Down to the first child. -/
def firstChild? : Option Cursor := c.childWhere? fun _ _ => true

/-- Down to the first child that ends after `byte`. -/
def firstChildForByte? (byte : Nat) : Option Cursor := c.childWhere? fun _ stop => byte < stop.bytes

/-- Down to the first child that ends after `point`. -/
def firstChildForPoint? (point : Point) : Option Cursor :=
  c.childWhere? fun _ stop => point < stop.extent

/-- Across to the sibling after the node. -/
def nextSibling? : Option Cursor :=
  match c.above with
  | [] => none
  | p :: _ =>
    p.green.children[c.top.index + 1]?.map fun next =>
      { c with
        top := ⟨next.node, c.top.start + c.top.green.label.size + next.node.label.padding,
          c.top.index + 1, next.field⟩ }

/-- Across to the sibling before the node. -/
def prevSibling? : Option Cursor :=
  if c.top.index = 0 then none
  else c.parent?.bind fun p => p.childWhere? fun index _ => index = c.top.index - 1

end Cursor

end Reparse
