import Reparse.C.Lexer
import Reparse.Tree.Builder

/-!
# Items

What a parse has read, before it becomes a tree: tokens, tokens that were expected and are not
there, subtrees taken over from an old tree, and nodes made of items. An item is handed to a
builder token by token, in document order.
-/

namespace Reparse.C

/-- A part of a parsed document, under a field of the node that it belongs to. -/
inductive Item where
  | token (field : Option Field) (t : Token)
  | missing (field : Option Field) (kind : Terminal)
  | reused (subtree : Green)
  | node (field : Option Field) (rule : Rule) (parts : List Item)

namespace Item

/-- The item under a field; a subtree that was taken over keeps to no field. -/
def under (f : Field) : Item → Item
  | token _ t => token (some f) t
  | missing _ kind => missing (some f) kind
  | reused subtree => reused subtree
  | node _ rule parts => node (some f) rule parts

mutual

/-- The tokens of an item, in order; missing tokens and subtrees that were taken over have
none. -/
def tokens : Item → List Token
  | token _ t => [t]
  | missing _ _ => []
  | reused _ => []
  | node _ _ parts => tokensOf parts

/-- The tokens of several items, in order. -/
def tokensOf : List Item → List Token
  | [] => []
  | i :: rest => i.tokens ++ tokensOf rest

end

/-- The tokens of items come one after the other. -/
@[simp]
theorem tokensOf_append (a b : List Item) : tokensOf (a ++ b) = tokensOf a ++ tokensOf b := by
  induction a with
  | nil => rfl
  | cons i a ih => simp [tokensOf, ih]

/-- Tokens are those of the items that stand for them. -/
@[simp]
theorem tokensOf_map_token (field : Option Field) (ts : List Token) :
    tokensOf (ts.map (.token field)) = ts := by
  induction ts with
  | nil => rfl
  | cons t ts ih => simp [tokensOf, tokens, ih]

/-- A field changes no tokens. -/
@[simp]
theorem tokens_under (f : Field) (i : Item) : (i.under f).tokens = i.tokens := by
  cases i <;> rfl

/-- A token as a builder takes it. -/
def leafOf (s : Source) (field : Option Field) (t : Token) : Leaf where
  symbol := t.kind.symbol
  field := field.map Field.id
  start := s.positionAt t.start
  stop := s.positionAt t.stop
  lookahead := t.lookahead
  isExtra := t.kind == .comment

mutual

/-- Adds an item to a tree under construction. -/
def addTo (s : Source) (b : Builder) : Item → Except Fault Builder
  | token field t => .ok (b.leaf (leafOf s field t))
  | missing field kind => .ok (b.missing kind.symbol (field.map Field.id))
  | reused subtree => .ok (b.reuse subtree none)
  | node field rule parts =>
    (addAllTo s (b.startNode rule.symbol (field.map Field.id)) parts).bind Builder.finishNode

/-- Adds several items in order. -/
def addAllTo (s : Source) (b : Builder) : List Item → Except Fault Builder
  | [] => .ok b
  | i :: rest => (addTo s b i).bind fun b => addAllTo s b rest

end

/-- The tree of a document with the given items at top level. -/
def treeOf (s : Source) (generation : Nat) (items : List Item) : Except Fault Tree :=
  (addTo s (.new grammar generation) (.node none .document items)).bind fun b =>
    b.finish (s.positionAt s.endOfInput) s.ranges

end Item

end Reparse.C
