import Reparse.Tree.Basic

/-!
# Nodes

A node is a green node seen at a place of a tree. Places are not stored: the first child starts
where its parent starts, and every later child starts after its own padding behind the child
before it.
-/

namespace Reparse

/-- A green node of a tree together with its absolute start. -/
structure Node where
  tree : Tree
  green : Green
  start : Length

/-- The root of a tree as a node. -/
def Tree.rootNode (t : Tree) : Node := ⟨t, t.root, t.root.label.padding⟩

namespace Green

/-- The starts of children that follow other children, the last of which ends at `stop`. -/
def layOutAfter (stop : Length) : List (Child Green) → List (Child Green × Length)
  | [] => []
  | c :: rest =>
    let start := stop + c.node.label.padding
    (c, start) :: layOutAfter (start + c.node.label.size) rest

/-- The children of a node that starts at `start`, each with its own start. -/
def layOut (start : Length) : List (Child Green) → List (Child Green × Length)
  | [] => []
  | c :: rest => (c, start) :: layOutAfter (start + c.node.label.size) rest

/-- The layout lists the children themselves. -/
@[simp]
theorem map_fst_layOutAfter (stop : Length) (cs : List (Child Green)) :
    (layOutAfter stop cs).map (·.1) = cs := by
  induction cs generalizing stop with
  | nil => rfl
  | cons c cs ih => simp [layOutAfter, ih]

/-- Laying out keeps all children, in order. -/
@[simp]
theorem map_fst_layOut (start : Length) (cs : List (Child Green)) :
    (layOut start cs).map (·.1) = cs := by
  cases cs <;> simp [layOut]

/-- The layout has a place for each child. -/
@[simp]
theorem length_layOut (start : Length) (cs : List (Child Green)) :
    (layOut start cs).length = cs.length := by
  rw [← List.length_map (·.1), map_fst_layOut]

end Green

namespace Node

variable (n : Node)

/-- The position after the last byte of the node. -/
def stop : Length := n.start + n.green.label.size

/-- The first byte of the padding before the node. -/
def totalStart : Nat := n.start.bytes - n.green.label.padding.bytes

/-- The symbol of the node. -/
def symbol : Symbol := n.green.label.symbol

/-- The name of the node's symbol, empty for a symbol that the grammar does not know. -/
def kind : String := (n.tree.grammar.symbolName? n.symbol).getD ""

/-- Whether the node stands for a rule or token with a name of its own. -/
def isNamed : Bool := n.green.label.isNamed

/-- Whether the node was put in for a token that was expected and not found. -/
def isMissing : Bool := n.green.label.isMissing

/-- Whether the node may stand anywhere, as comments do. -/
def isExtra : Bool := n.green.label.isExtra

/-- Whether the node holds text that fits no rule. -/
def isError : Bool := n.symbol == .error

/-- Whether the node or one below it is an error or missing. -/
def hasError : Bool := n.green.label.hasError

/-- Whether an edit touched the node since it was parsed. -/
def hasChanges : Bool := n.green.label.hasChanges

/-- The first byte of the node. -/
def startByte : Nat := n.start.bytes

/-- The byte after the last byte of the node. -/
def stopByte : Nat := n.stop.bytes

/-- The row and column of the first byte. -/
def startPoint : Point := n.start.extent

/-- The row and column after the last byte. -/
def stopPoint : Point := n.stop.extent

/-- The stretch of the document that the node covers. -/
def span : Span := ⟨n.start, n.stop⟩

/-- Whether two nodes are the same storage, whatever their place. -/
def sameStorage (m : Node) : Bool := n.green.sameStorage m.green

/-- Nodes are equal when storage, start and the storage of their trees' roots agree. -/
def same (m : Node) : Bool :=
  n.sameStorage m && n.start == m.start && n.tree.root.sameStorage m.tree.root

instance : BEq Node := ⟨same⟩

/-- The children in order, each with the field it is stored under. -/
def entries : List (Option FieldId × Node) :=
  (Green.layOut n.start n.green.children).map fun (c, start) => (c.field, ⟨n.tree, c.node, start⟩)

/-- The children in order. -/
def children : List Node := n.entries.map (·.2)

/-- The named children in order. -/
def namedChildren : List Node := n.children.filter (·.isNamed)

/-- The number of children. -/
def childCount : Nat := n.green.children.length

/-- A node has as many children as it counts. -/
@[simp]
theorem length_children (n : Node) : n.children.length = n.childCount := by
  simp [children, entries, childCount]

/-- The number of named children. -/
def namedChildCount : Nat := n.green.label.namedChildCount

/-- The child with a given number. -/
def child? (index : Nat) : Option Node := n.children[index]?

/-- The named child with a given number, counting named children only. -/
def namedChild? (index : Nat) : Option Node := n.namedChildren[index]?

/-- The field under which the child with a given number is stored. -/
def fieldForChild? (index : Nat) : Option FieldId :=
  n.green.children[index]?.bind (·.field)

/-- The name of that field. -/
def fieldNameForChild? (index : Nat) : Option String :=
  (n.fieldForChild? index).bind n.tree.grammar.fieldName?

/-- The first child stored under a field. -/
def childByField? (field : FieldId) : Option Node :=
  (n.entries.find? fun e => e.1 == some field).map (·.2)

/-- The first child stored under a field with a given name. -/
def childByFieldName? (name : String) : Option Node :=
  (n.tree.grammar.fieldForName? name).bind n.childByField?

/-- The node reached by a path of child numbers. -/
def descend? (n : Node) : List Nat → Option Node
  | [] => some n
  | i :: path => (n.child? i).bind fun c => c.descend? path

/-- Moves the place of a node across an edit; the tree stays as it is. -/
def edit (e : Edit) : Node := { n with start := e.shift n.start }

/-- The bytes of the node in `text`, provided that the text is long enough. -/
def bytesIn? (text : List UInt8) : Option (List UInt8) :=
  if n.stopByte ≤ text.length then
    some ((text.drop n.startByte).take (n.stopByte - n.startByte))
  else none

/-- The code units of the node in `text`, for a tree of text in 16-bit units, provided that the
text is long enough. -/
def unitsIn? (text : List Nat) : Option (List Nat) :=
  if n.stopByte / 2 ≤ text.length then
    some ((text.drop (n.startByte / 2)).take (n.stopByte / 2 - n.startByte / 2))
  else none

end Node

end Reparse
