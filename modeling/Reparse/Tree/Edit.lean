import Reparse.Tree.Green

/-!
# Editing green trees

An edit changes the padding and size of every node that it touches and leaves all other nodes
as they are, storage included. A node is touched when the edit starts at or before the last byte
that was looked at to build it. Edits are given relative to the start of a node's padding; on
the way down each child sees its own part, and of the children on one level the first one that
reaches the edit takes in the new text.
-/

namespace Reparse

namespace Label

/-- Padding and size together. -/
def total (l : Label) : Length := l.padding + l.size

/-- The end of what was looked at to build the node, in bytes from the start of its padding. -/
def lookaheadEnd (l : Label) : Nat := addCounts l.total.bytes l.lookahead

/-- Whether an edit starts beyond everything that the node depends on. -/
def isUntouchedBy (e : Edit) (l : Label) : Bool :=
  l.lookaheadEnd < e.start.bytes || (e.isVoid && e.start.bytes == l.lookaheadEnd)

/-- The padding and the size after an edit. -/
def reshape (e : Edit) (l : Label) : Length × Length :=
  if e.oldEnd.bytes ≤ l.padding.bytes then
    (e.newEnd + (l.padding - e.oldEnd), l.size)
  else if e.start.bytes < l.padding.bytes then
    (e.newEnd, l.size.beyond (e.oldEnd - l.padding))
  else if e.start.bytes = l.padding.bytes ∧ e.isInsertion then
    (e.newEnd, l.size)
  else if e.start.bytes < l.total.bytes ∨ (e.start.bytes = l.total.bytes ∧ e.isInsertion) then
    (l.padding, (e.newEnd - l.padding) + l.total.beyond e.oldEnd)
  else (l.padding, l.size)

/-- The label of a touched node: new extents, the mark of a change, and storage of its own. -/
def edited (stamp : Stamp) (e : Edit) (l : Label) : Label :=
  { l with
    padding := (l.reshape e).1
    size := (l.reshape e).2
    hasChanges := true
    stamp := stamp }

end Label

namespace Edit

/-- The edit without its removed and its new text. -/
def collapsed (e : Edit) : Edit := ⟨e.start, e.start, e.start⟩

/-- The edit with its new text taken away: another node holds it already. -/
def absorbed (e : Edit) : Edit := ⟨e.start, e.oldEnd, e.start⟩

end Edit

namespace Green

mutual

/-- Edits a tree; `place` is the reversed path of child indices that leads to it. -/
def edit (generation : Nat) (place : List Nat) (e : Edit) : Green → Green
  | node l cs =>
    if l.isUntouchedBy e then node l cs
    else
      node (l.edited ⟨generation, place⟩ e)
        (editChildren generation place e e.isInsertion 0 .zero cs)

/-- Edits the children from number `index` on, which start at `left`. While `insertion` holds,
the edit removes nothing and no child has taken in the new text yet. -/
def editChildren (generation : Nat) (place : List Nat) (e : Edit) (insertion : Bool)
    (index : Nat) (left : Length) : List (Child Green) → List (Child Green)
  | [] => []
  | c :: rest =>
    let right := left + c.node.total
    if addCounts right.bytes c.node.label.lookahead < e.start.bytes then
      c :: editChildren generation place e insertion (index + 1) right rest
    else if e.oldEnd.bytes < left.bytes ∨
        (left.bytes = e.oldEnd.bytes ∧ 0 < c.node.total.bytes ∧ 0 < index) then
      c :: rest
    else if e.start.bytes < right.bytes ∨ (right.bytes = e.start.bytes ∧ insertion) then
      ⟨c.field, c.node.edit generation (index :: place) (e.relativeTo left)⟩ ::
        editChildren generation place e.absorbed false (index + 1) right rest
    else
      ⟨c.field, c.node.edit generation (index :: place) (e.relativeTo left).collapsed⟩ ::
        editChildren generation place e insertion (index + 1) right rest

end

end Green

end Reparse
