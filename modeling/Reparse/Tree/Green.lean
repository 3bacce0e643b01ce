import Reparse.Edit
import Reparse.Grammar

/-!
# Green nodes

The storage of a syntax tree. A green node knows its own padding (the blank text before it) and
its own size, and nothing about where it stands, so that one subtree can serve several trees.
Every node carries a stamp that names its storage: a node that is taken over into another tree
keeps its stamp, and a node that is built or changed gets a new one.
-/

namespace Reparse

/-- The name of a node's storage: the construction or edit that made the node, and the node's
place in it. -/
structure Stamp where
  generation : Nat
  place : List Nat
deriving DecidableEq, Repr, Hashable

/-- What a green node records besides its children. -/
structure Label where
  symbol : Symbol
  /-- The blank text before the first byte. -/
  padding : Length
  size : Length
  /-- Bytes past the end that had to be looked at to find the end. -/
  lookahead : Nat
  isNamed : Bool
  isExtra : Bool
  isMissing : Bool
  hasChanges : Bool
  hasError : Bool
  namedChildCount : Nat
  stamp : Stamp
deriving DecidableEq, Repr

/-- A child together with the field it is stored under. -/
structure Child (α : Type) where
  field : Option FieldId
  node : α
deriving Repr

/-- A node with its children, in order. -/
inductive Green where
  | node (label : Label) (children : List (Child Green))

namespace Green

/-- What the node records besides its children. -/
def label : Green → Label
  | node l _ => l

/-- The children of the node, in order. -/
def children : Green → List (Child Green)
  | node _ cs => cs

/-- The node with another label. -/
def withLabel (l : Label) : Green → Green
  | node _ cs => node l cs

/-- A tree has the label that it is given. -/
@[simp]
theorem label_withLabel (l : Label) (g : Green) : (g.withLabel l).label = l := by cases g; rfl

/-- A new label leaves the children. -/
@[simp]
theorem children_withLabel (l : Label) (g : Green) : (g.withLabel l).children = g.children := by
  cases g
  rfl

/-- Padding and size together. -/
def total (g : Green) : Length := g.label.padding + g.label.size

mutual

/-- The number of levels of a tree; a node without children has one. -/
def depth : Green → Nat
  | node _ cs => depthOfAll cs + 1

/-- The number of levels of the deepest of several trees. -/
def depthOfAll : List (Child Green) → Nat
  | [] => 0
  | c :: rest => max c.node.depth (depthOfAll rest)

end

mutual

/-- The number of nodes of a tree. -/
def count : Green → Nat
  | node _ cs => countOfAll cs + 1

/-- The number of nodes of several trees. -/
def countOfAll : List (Child Green) → Nat
  | [] => 0
  | c :: rest => c.node.count + countOfAll rest

end

/-- A child has fewer levels than its parent. -/
theorem depth_le_depthOfAll {c : Child Green} {cs : List (Child Green)} (h : c ∈ cs) :
    c.node.depth ≤ depthOfAll cs := by
  induction cs with
  | nil => cases h
  | cons d cs ih =>
    rw [depthOfAll]
    cases h with
    | head => exact Nat.le_max_left _ _
    | tail _ h => exact Nat.le_trans (ih h) (Nat.le_max_right _ _)

/-- Whether two nodes are the same storage. -/
def sameStorage (a b : Green) : Bool := a.label.stamp == b.label.stamp

/-- Induction over a tree: a property passes from all children to their parent. -/
theorem induct {P : Green → Prop}
    (node : ∀ l cs, (∀ c ∈ cs, P c.node) → P (.node l cs)) (g : Green) : P g := by
  induction g using Green.rec (motive_2 := fun cs => ∀ c ∈ cs, P c.node)
    (motive_3 := fun c => P c.node) with
  | node l cs ih => exact node l cs ih
  | nil => rename_i hc; cases hc
  | cons c cs hc hcs =>
    rename_i hx
    cases hx with
    | head => exact hc
    | tail _ hx => exact hcs _ hx
  | mk f g ih => exact ih

end Green

end Reparse
