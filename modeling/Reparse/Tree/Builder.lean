import Reparse.Tree.Basic

/-!
# Building trees

A builder takes the tokens of a document in order, together with where nodes begin and end, and
makes a tree of them. Positions come in absolute; the blank text between two tokens becomes the
padding of the second. The builder is a zipper: it holds the children of the node that is open,
and for every open node the siblings before it.
-/

namespace Reparse

/-- A token as a builder takes it, in absolute positions. -/
structure Leaf where
  symbol : Symbol
  field : Option FieldId
  start : Length
  stop : Length
  /-- Bytes after `stop` that were looked at to find it. -/
  lookahead : Nat
  /-- Whether the token may stand anywhere, as comments do. -/
  isExtra : Bool
deriving DecidableEq, Repr

/-- A misuse of a builder. -/
inductive Fault where
  /-- A node is finished and none is open. -/
  | noOpenNode
  /-- The tree is finished and a node is still open. -/
  | openNodeLeft
  /-- What a parse has noted does not tell the builder what to do. -/
  | noCalls
deriving DecidableEq, Repr

/-- A node that is not finished: what it will be, where it starts, and its siblings, newest
first. -/
structure OpenNode where
  symbol : Symbol
  field : Option FieldId
  start : Length
  siblings : List (Child Green)

/-- A tree under construction. -/
structure Builder where
  grammar : Grammar
  generation : Nat
  /-- The number of nodes made so far. -/
  made : Nat
  openNodes : List OpenNode
  /-- The children of the innermost open node, newest first. -/
  children : List (Child Green)
  /-- The end of what was added so far. -/
  position : Length

namespace Builder

/-- A builder for a tree of `grammar`, whose new nodes belong to `generation`. -/
def new (grammar : Grammar) (generation : Nat) : Builder := ⟨grammar, generation, 0, [], [], .zero⟩

/-- Adds a finished node to the node that is open. -/
def push (b : Builder) (field : Option FieldId) (g : Green) : Builder :=
  { b with children := ⟨field, g⟩ :: b.children }

/-- The storage of the next node, and the builder after it was made. -/
def stamp (b : Builder) : Stamp × Builder :=
  (⟨b.generation, [b.made]⟩, { b with made := b.made + 1 })

/-- Opens a node. -/
def startNode (b : Builder) (symbol : Symbol) (field : Option FieldId) : Builder :=
  { b with openNodes := ⟨symbol, field, b.position, b.children⟩ :: b.openNodes, children := [] }

/-- The end of what was looked at to build some children, in bytes from where they start. -/
def lookaheadEnd (children : List (Child Green)) : Nat :=
  (children.foldl (fun (reached : Nat × Nat) c =>
    let offset := addCounts reached.1 c.node.total.bytes
    (offset, max reached.2 (addCounts offset c.node.label.lookahead))) (0, 0)).2

/-- The node over some children that starts at `start` and ends where the builder stands. The number of its
named children is kept in 32 bits. -/
def nodeOver (b : Builder) (stamp : Stamp) (symbol : Symbol) (start : Length)
    (children : List (Child Green)) : Green :=
  let padding := (children.head?.map (·.node.label.padding)).getD .zero
  let size := b.position.beyond (start + padding)
  .node {
    symbol := symbol
    padding := padding
    size := size
    lookahead := lookaheadEnd children - (padding + size).bytes
    isNamed := b.grammar.isNamed symbol
    isExtra := false
    isMissing := false
    hasChanges := false
    hasError := symbol == .error || children.any (·.node.label.hasError)
    namedChildCount := Span.countOf (children.countP (·.node.label.isNamed))
    stamp := stamp } children

/-- Closes the innermost open node. -/
def finishNode (b : Builder) : Except Fault Builder :=
  match b.openNodes with
  | [] => .error .noOpenNode
  | o :: rest =>
    let (stamp, b) := b.stamp
    let g := b.nodeOver stamp o.symbol o.start b.children.reverse
    .ok { b with openNodes := rest, children := ⟨o.field, g⟩ :: o.siblings }

/-- Adds a token. -/
def leaf (b : Builder) (l : Leaf) : Builder :=
  let (stamp, b) := b.stamp
  let g : Green := .node {
    symbol := l.symbol
    padding := l.start.beyond b.position
    size := l.stop.beyond l.start
    lookahead := l.lookahead
    isNamed := b.grammar.isNamed l.symbol
    isExtra := l.isExtra
    isMissing := false
    hasChanges := false
    hasError := l.symbol == .error
    namedChildCount := 0
    stamp := stamp } []
  { b.push l.field g with
    position := if b.position.bytes ≤ l.stop.bytes then l.stop else b.position }

/-- Adds a token without extent in place of one that was expected. -/
def missing (b : Builder) (symbol : Symbol) (field : Option FieldId) : Builder :=
  let (stamp, b) := b.stamp
  b.push field <| .node {
    symbol := symbol
    padding := .zero
    size := .zero
    lookahead := 0
    isNamed := b.grammar.isNamed symbol
    isExtra := false
    isMissing := true
    hasChanges := false
    hasError := true
    namedChildCount := 0
    stamp := stamp } []

/-- Adds a subtree of another tree where the builder stands. -/
def reuse (b : Builder) (g : Green) (field : Option FieldId) : Builder :=
  { b.push field g with position := b.position + g.total }

/-- The root of a tree: new storage, stretched to the end of the document. -/
def rootLabel (generation : Nat) (stop : Length) (l : Label) : Label :=
  { l with
    size := if l.padding.bytes ≤ stop.bytes then stop - l.padding else l.size
    stamp := ⟨generation, []⟩ }

/-- Closes the tree. A single node becomes the root; otherwise an error node over all of them
does. -/
def finish (b : Builder) (stop : Length) (includedRanges : List Span) : Except Fault Tree :=
  match b.openNodes with
  | _ :: _ => .error .openNodeLeft
  | [] =>
    let root := match b.children with
      | [c] => c.node
      | children => b.nodeOver ⟨b.generation, []⟩ .error .zero children.reverse
    .ok ⟨root.withLabel (rootLabel b.generation stop root.label), b.grammar, includedRanges⟩

end Builder

end Reparse
