import Mathlib.Tactic.Lemma
import Reparse.C.Item
import Reparse.Node.Walk

/-!
# Built trees

The tree that a builder makes of items, as a function of the items: `Item.built`. Two things are
left out, as they tell nothing about the document: the names of storage and the numbers of bytes
that were looked at (`Green.bare`). The main statement is `treeOf_eq`.
-/

namespace Reparse

namespace Label

/-- The label without the name of its storage and without what was looked at. -/
def bare (l : Label) : Label := { l with lookahead := 0, stamp := ⟨0, []⟩ }

end Label

namespace Green

mutual

/-- The tree without the names of its storage and without what was looked at. -/
def bare : Green → Green
  | node l cs => node l.bare (bareAll cs)

/-- Several trees without the names of their storage and without what was looked at. -/
def bareAll : List (Child Green) → List (Child Green)
  | [] => []
  | c :: rest => ⟨c.field, c.node.bare⟩ :: bareAll rest

end

/-- Stamps and marks are taken off each child by itself. -/
lemma bareAll_eq_map (cs : List (Child Green)) :
    bareAll cs = cs.map fun c => ⟨c.field, c.node.bare⟩ := by
  induction cs with
  | nil => rfl
  | cons c cs ih => rw [bareAll, ih, List.map_cons]

/-- The label of a bare tree is the bare label. -/
@[simp]
lemma label_bare (g : Green) : g.bare.label = g.label.bare := by
  cases g
  rfl

/-- The children of a bare tree are the bare children. -/
@[simp]
lemma children_bare (g : Green) : g.bare.children = bareAll g.children := by
  cases g
  rfl

/-- A bare tree is as long as before. -/
@[simp]
lemma total_bare (g : Green) : g.bare.total = g.total := by
  simp [total, Label.bare]

/-- Bare trees begin with the same padding. -/
lemma padding_head_bareAll (cs : List (Child Green)) :
    (bareAll cs).head?.map (·.node.label.padding) = cs.head?.map (·.node.label.padding) := by
  cases cs <;> simp [bareAll, Label.bare]

end Green

namespace C

open Green

/-- The label of a token between two positions, after `position`. -/
def leafLabel (position start stop : Length) (kind : Terminal) : Label where
  symbol := kind.symbol
  padding := start.beyond position
  size := stop.beyond start
  lookahead := 0
  isNamed := grammar.isNamed kind.symbol
  isExtra := kind == .comment
  isMissing := false
  hasChanges := false
  hasError := kind.symbol == .error
  namedChildCount := 0
  stamp := ⟨0, []⟩

/-- The label of a token that is not there. -/
def missingLabel (kind : Terminal) : Label where
  symbol := kind.symbol
  padding := .zero
  size := .zero
  lookahead := 0
  isNamed := grammar.isNamed kind.symbol
  isExtra := false
  isMissing := true
  hasChanges := false
  hasError := true
  namedChildCount := 0
  stamp := ⟨0, []⟩

/-- The label of a node over some children between two positions. -/
def nodeLabel (start stop : Length) (symbol : Symbol) (children : List (Child Green)) : Label where
  symbol := symbol
  padding := (children.head?.map (·.node.label.padding)).getD .zero
  size := stop.beyond (start + (children.head?.map (·.node.label.padding)).getD .zero)
  lookahead := 0
  isNamed := grammar.isNamed symbol
  isExtra := false
  isMissing := false
  hasChanges := false
  hasError := symbol == .error || children.any (·.node.label.hasError)
  namedChildCount := Span.countOf (children.countP (·.node.label.isNamed))
  stamp := ⟨0, []⟩

namespace Item

mutual

/-- What is built of an item after `position`, and the position after it; `place` says where the
bytes are. -/
def built (place : Nat → Length) (position : Length) : Item → Child Green × Length
  | token field t =>
    (⟨field.map Field.id, .node (leafLabel position (place t.start) (place t.stop) t.kind) []⟩,
      if position.bytes ≤ (place t.stop).bytes then place t.stop else position)
  | missing field kind => (⟨field.map Field.id, .node (missingLabel kind) []⟩, position)
  | reused g => (⟨none, g.bare⟩, position + g.total)
  | node field rule parts =>
    let (children, stop) := builtAll place position parts
    (⟨field.map Field.id, .node (nodeLabel position stop rule.symbol children) children⟩, stop)

/-- What is built of several items in order. -/
def builtAll (place : Nat → Length) (position : Length) : List Item → List (Child Green) × Length
  | [] => ([], position)
  | i :: rest =>
    let (c, next) := built place position i
    let (cs, stop) := builtAll place next rest
    (c :: cs, stop)

end

/-- Items are built in turn, each from where the one before it ends. -/
lemma builtAll_cons (place : Nat → Length) (position : Length) (i : Item) (rest : List Item) :
    builtAll place position (i :: rest) =
      ((built place position i).1 :: (builtAll place (built place position i).2 rest).1,
        (builtAll place (built place position i).2 rest).2) := rfl

/-- Without its stamp, the node that a builder closes depends only on its children and on where it lies. -/
lemma bare_nodeOver {b : Builder} (hg : b.grammar = grammar) (stamp : Stamp) (symbol : Symbol)
    (start : Length) (children : List (Child Green)) :
    (b.nodeOver stamp symbol start children).bare =
      .node (nodeLabel start b.position symbol (bareAll children)) (bareAll children) := by
  have hany : (bareAll children).any (·.node.label.hasError) =
      children.any (·.node.label.hasError) := by
    simp [bareAll_eq_map, List.any_map, Function.comp_def, Label.bare]
  have hcount : (bareAll children).countP (·.node.label.isNamed) =
      children.countP (·.node.label.isNamed) := by
    simp [bareAll_eq_map, List.countP_map, Function.comp_def, Label.bare]
  simp only [Builder.nodeOver, bare, Label.bare, nodeLabel, hg, padding_head_bareAll, hany, hcount]

mutual

/-- A builder adds to the open node what is built of an item. -/
lemma addTo_eq (s : Source) : ∀ (i : Item) (b : Builder), b.grammar = grammar →
    ∃ made c, addTo s b i = .ok { b with
        made := made
        children := c :: b.children
        position := (built s.positionAt b.position i).2 } ∧
      (⟨c.field, c.node.bare⟩ : Child Green) = (built s.positionAt b.position i).1
  | token field t, b, hg => by
    refine ⟨_, _, rfl, ?_⟩
    simp only [built, bare, bareAll, Label.bare, leafLabel, leafOf, hg]
  | missing field kind, b, hg => by
    refine ⟨_, _, rfl, ?_⟩
    simp only [built, bare, bareAll, Label.bare, missingLabel, hg]
  | reused g, b, _ => ⟨_, _, rfl, rfl⟩
  | node field rule parts, b, hg => by
    obtain ⟨made, cs, hadd, hcs⟩ := addAllTo_eq s parts
      (b.startNode rule.symbol (field.map Field.id)) hg
    refine ⟨_, _, by rw [addTo, hadd]; rfl, ?_⟩
    have hc : (cs.reverse ++ (b.startNode rule.symbol (field.map Field.id)).children).reverse = cs := by
      simp [Builder.startNode]
    simp only [hc]
    rw [bare_nodeOver, hcs]
    · rfl
    · exact hg

/-- A builder adds to the open node what is built of several items. -/
lemma addAllTo_eq (s : Source) : ∀ (is : List Item) (b : Builder), b.grammar = grammar →
    ∃ made cs, addAllTo s b is = .ok { b with
        made := made
        children := cs.reverse ++ b.children
        position := (builtAll s.positionAt b.position is).2 } ∧
      bareAll cs = (builtAll s.positionAt b.position is).1
  | [], b, _ => ⟨b.made, [], rfl, rfl⟩
  | i :: rest, b, hg => by
    obtain ⟨made, c, hadd, hc⟩ := addTo_eq s i b hg
    obtain ⟨made', cs, hadd', hcs⟩ := addAllTo_eq s rest { b with
        made := made
        children := c :: b.children
        position := (built s.positionAt b.position i).2 } hg
    refine ⟨made', c :: cs, ?_, ?_⟩
    · rw [addAllTo, hadd]
      simp only [Except.bind, hadd', builtAll]
      simp
    · rw [bareAll, hc, hcs]
      rfl

end

/-- The root of the tree that is built of the items of a document: it ends at `stop`. -/
def builtRoot (place : Nat → Length) (stop : Length) (items : List Item) : Green :=
  let root := (built place .zero (.node none .document items)).1.node
  root.withLabel { root.label with
    size := if root.label.padding.bytes ≤ stop.bytes then stop - root.label.padding
      else root.label.size }

/-- The root has the padding of the first of the trees that are built, and ends at `stop`. -/
lemma label_builtRoot (place : Nat → Length) (stop : Length) (items : List Item) :
    (builtRoot place stop items).label.padding =
        ((builtAll place .zero items).1.head?.map (·.node.label.padding)).getD .zero ∧
      ((builtRoot place stop items).label.padding.bytes ≤ stop.bytes →
        (builtRoot place stop items).label.size =
          stop - (builtRoot place stop items).label.padding) :=
  ⟨rfl, fun h => if_pos h⟩

/-- The tree of a document is what is built of its items. -/
theorem treeOf_eq (s : Source) (generation : Nat) (items : List Item) :
    ∃ tree, treeOf s generation items = .ok tree ∧ tree.grammar = grammar ∧
      tree.includedRanges = s.ranges ∧
      tree.root.bare = builtRoot s.positionAt (s.positionAt s.endOfInput) items := by
  obtain ⟨made, c, hadd, hc⟩ := addTo_eq s (.node none .document items) (.new grammar generation) rfl
  refine ⟨_, by rw [treeOf, hadd]; rfl, rfl, rfl, ?_⟩
  have hn : c.node.bare = (built s.positionAt .zero (.node none .document items)).1.node :=
    congrArg Child.node hc
  rw [builtRoot, ← hn]
  obtain ⟨field, ⟨l, cs⟩⟩ := c
  rfl

/-- A tree that is built from items is one of C, over the ranges of the source, and its root is the one that
is built. -/
lemma of_treeOf {s : Source} {generation : Nat} {items : List Item} {t : Tree}
    (h : treeOf s generation items = .ok t) :
    t.grammar = grammar ∧ t.includedRanges = s.ranges ∧
      t.root.bare = builtRoot s.positionAt (s.positionAt s.endOfInput) items := by
  obtain ⟨t', h', ht⟩ := treeOf_eq s generation items
  obtain rfl : t = t' := Except.ok.inj (h.symm.trans h')
  exact ht

end Item

end C

end Reparse
