import Reparse.Proofs.Shape

/-!
# Derivations

The grammar of C as a relation: `Derives c ss` says that the shapes `ss` are a derivation of the
category `c`. The sentence of a derivation is the list of its leaves. That no sentence has two
derivations is a theorem about the readers and stands with them.
-/

namespace Reparse.C

/-- What some shapes may be a derivation of. -/
inductive Category where
  | primary
  /-- Operands joined by operators that bind at least as tightly as `power`. -/
  | binary (power : Nat)
  | expression
  | parameter
  /-- What stands in parentheses: elements with commas between them, and maybe one after them. -/
  | list (element : Category)
  | declarator
  /-- Declarators with commas between them. -/
  | declarators
  | statement
  | statements
  | topLevel
  | document

/-- The grammar: the ways to put a derivation together. -/
inductive Derives : Category → List Shape → Prop where
  | name : Derives .primary [.leaf none .identifier]
  | number : Derives .primary [.leaf none .numberLiteral]
  | emptyString :
    Derives .primary [.node none .stringLiteral [.leaf none .quote, .leaf none .quote]]
  | string :
    Derives .primary [.node none .stringLiteral
      [.leaf none .quote, .leaf none .stringContent, .leaf none .quote]]
  | call {arguments} :
    Derives (.list .expression) arguments →
    Derives .primary [.node none .callExpression
      [.leaf (some .function) .identifier, .node (some .arguments) .argumentList
        (.leaf none .leftParen :: (arguments ++ [Shape.leaf none .rightParen]))]]
  | parens {e} :
    Derives .expression [e] →
    Derives .primary [.node none .parenthesizedExpression
      [.leaf none .leftParen, e, .leaf none .rightParen]]
  | operand {power e} :
    Derives .primary [e] →
    Derives (.binary power) [e]
  | operation {power p operator l r} :
    bindingPower? operator = some p →
    power ≤ p →
    Derives (.binary p) [l] →
    Derives (.binary (p + 1)) [r] →
    Derives (.binary power) [.node none .binaryExpression
      [l.under .left, .leaf (some .operator) operator, r.under .right]]
  | plain {e} :
    Derives (.binary 0) [e] →
    Derives .expression [e]
  | assignment {l r} :
    Derives (.binary 0) [l] →
    Derives .expression [r] →
    Derives .expression [.node none .assignmentExpression
      [l.under .left, .leaf (some .operator) .equals, r.under .right]]
  | nil {c} : Derives (.list c) []
  | last {c e} :
    Derives c [e] →
    Derives (.list c) [e]
  | more {c e rest} :
    Derives c [e] →
    Derives (.list c) rest →
    Derives (.list c) (e :: .leaf none .comma :: rest)
  | unnamed :
    Derives .parameter [.node none .parameterDeclaration [.leaf (some .type) .primitiveType]]
  | named :
    Derives .parameter [.node none .parameterDeclaration
      [.leaf (some .type) .primitiveType, .leaf (some .declarator) .identifier]]
  | bare : Derives .declarator [.leaf (some .declarator) .identifier]
  | initialized {e} :
    Derives .expression [e] →
    Derives .declarator [.node (some .declarator) .initDeclarator
      [.leaf (some .declarator) .identifier, .leaf none .equals, e.under .value]]
  | function {parameters} :
    Derives (.list .parameter) parameters →
    Derives .declarator [.node (some .declarator) .functionDeclarator
      [.leaf (some .declarator) .identifier, .node (some .parameters) .parameterList
        (.leaf none .leftParen :: (parameters ++ [Shape.leaf none .rightParen]))]]
  | single {d} :
    Derives .declarator [d] →
    Derives .declarators [d]
  | several {d rest} :
    Derives .declarator [d] →
    Derives .declarators rest →
    Derives .declarators (d :: .leaf none .comma :: rest)
  | declaration {ds} :
    Derives .declarators ds →
    Derives .statement [.node none .declaration
      (.leaf (some .type) .primitiveType :: (ds ++ [Shape.leaf none .semicolon]))]
  | compound {body} :
    Derives .statements body →
    Derives .statement [.node none .compoundStatement
      (.leaf none .leftBrace :: (body ++ [Shape.leaf none .rightBrace]))]
  | emptyReturn :
    Derives .statement [.node none .returnStatement
      [.leaf none .returnKeyword, .leaf none .semicolon]]
  | return {e} :
    Derives .expression [e] →
    Derives .statement [.node none .returnStatement
      [.leaf none .returnKeyword, e, .leaf none .semicolon]]
  | emptyStatement : Derives .statement [.node none .expressionStatement [.leaf none .semicolon]]
  | evaluation {e} :
    Derives .expression [e] →
    Derives .statement [.node none .expressionStatement [e, .leaf none .semicolon]]
  | done : Derives .statements []
  | next {s rest} :
    Derives .statement [s] →
    Derives .statements rest →
    Derives .statements (s :: rest)
  | loose {s} :
    Derives .statement [s] →
    Derives .topLevel [s]
  | definition {parameters body} :
    Derives (.list .parameter) parameters →
    Derives .statements body →
    Derives .topLevel [.node none .functionDefinition
      [.leaf (some .type) .primitiveType,
        .node (some .declarator) .functionDeclarator
          [.leaf (some .declarator) .identifier, .node (some .parameters) .parameterList
            (.leaf none .leftParen :: (parameters ++ [Shape.leaf none .rightParen]))],
        .node (some .body) .compoundStatement
          (.leaf none .leftBrace :: (body ++ [Shape.leaf none .rightBrace]))]]
  | blank : Derives .document []
  | further {s rest} :
    Derives .topLevel [s] →
    Derives .document rest →
    Derives .document (s :: rest)

end Reparse.C
