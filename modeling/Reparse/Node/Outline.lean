import Reparse.Node.Basic

/-!
# Outlines

The named structure of a tree: its named and its missing nodes, each under its field. A node
that is neither is left out, and what is visible below it moves up into its place, without
fields. The written form of an outline is an S-expression.
-/

namespace Reparse

/-- A visible node with its field and the visible nodes below it. -/
inductive Outline where
  /-- A node that was put in for a token that was expected. -/
  | missing (field : Option String) (isNamed : Bool) (kind : String)
  | node (field : Option String) (kind : String) (parts : List Outline)

namespace Outline

/-- A field as it stands before a node. -/
def fieldText (field : Option String) : String := (field.map (· ++ ": ")).getD ""

mutual

/-- The S-expression of a visible node. -/
def render : Outline → String
  | missing field isNamed kind =>
    fieldText field ++ "(MISSING " ++
      (if isNamed then kind else "\"" ++ Text.plainAscii kind ++ "\"") ++ ")"
  | node field kind parts => fieldText field ++ "(" ++ kind ++ renderInner parts ++ ")"

/-- The S-expressions of the nodes below a visible node, each after a space. -/
def renderInner : List Outline → String
  | [] => ""
  | o :: rest => " " ++ o.render ++ renderInner rest

end

end Outline

namespace Node

/-- The visible nodes at and below `n`, where `n` stands under `field`, down to `levels`
levels. -/
def outlineUnder : Nat → Option String → Node → List Outline
  | 0, _, _ => []
  | levels + 1, field, n =>
    if n.isMissing then [.missing field n.isNamed n.kind]
    else if n.isNamed then
      [.node field n.kind <| n.entries.flatMap fun (f, c) =>
        outlineUnder levels (f.bind n.tree.grammar.fieldName?) c]
    else n.children.flatMap (outlineUnder levels none)

/-- The visible nodes at and below a node. -/
def outline (n : Node) : List Outline := outlineUnder n.green.depth none n

/-- The named structure of a node as S-expressions, separated by spaces. -/
def toSExpression (n : Node) : String := " ".intercalate (n.outline.map (·.render))

/-- The written form of a node, as in `\x7bNode identifier (0, 4) - (0, 5)\x7d`. -/
def display (n : Node) : String :=
  "\x7bNode " ++ n.kind ++ " " ++ n.startPoint.display ++ " - " ++ n.stopPoint.display ++ "\x7d"

end Node

/-- The written form of a tree. -/
def Tree.display (t : Tree) : String := "\x7bTree " ++ t.rootNode.display ++ "\x7d"

end Reparse
