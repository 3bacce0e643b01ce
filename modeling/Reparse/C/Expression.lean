import Reparse.C.Reader

/-!
# Expressions of C

Assignments bind weakest and to the right, sums and products to the left, products tighter than
sums. Below them stand names, calls, numbers, strings and parenthesized expressions. An operand
that an operator asks for and that is not there is a missing identifier.
-/

namespace Reparse.C

/-- What was read for an operand: the comments before it, the operand if there is one, and the
tokens left. -/
structure OperandReading where
  before : List Item
  operand : Option Item
  rest : List Token

namespace OperandReading

/-- The reading as items of the node that the operand belongs to. -/
def items (r : OperandReading) : Reading := (r.before ++ r.operand.toList, r.rest)

/-- The reading under a field, with a missing identifier where there is no operand. -/
def orMissing (field : Option Field) (r : OperandReading) : Reading :=
  let operand := r.operand.getD (.missing none .identifier)
  (r.before ++ [(field.map operand.under).getD operand], r.rest)

end OperandReading

/-- The tokens that an expression may start with. -/
def expressionFirst : List Terminal := [.identifier, .numberLiteral, .quote, .leftParen]

/-- How tightly an operator binds its operands. -/
def bindingPower? : Terminal → Option Nat
  | .plus | .minus => some 1
  | .star | .slash => some 2
  | _ => none

/-- A string from its opening quote on. -/
def stringLiteral (opening : Token) (ts : List Token) : Item × List Token :=
  let (text, ts) := takeIf .stringContent none ts
  let (closing, ts) := expect .quote none ts
  (.node none .stringLiteral (.token none opening :: (text ++ closing)), ts)

mutual

/-- An expression. The first argument bounds how deep the readers below may go. -/
def expressionWithin : Nat → List Token → OperandReading
  | 0, ts => ⟨[], none, ts⟩
  | depth + 1, ts =>
    match binaryWithin depth 0 ts with
    | ⟨before, none, ts⟩ => ⟨before, none, ts⟩
    | ⟨before, some left, ts⟩ =>
      if ahead? ts = some .equals then
        let (operator, ts) := take (some .operator) ts
        let (right, ts) := (expressionWithin depth ts).orMissing (some .right)
        ⟨before, some (.node none .assignmentExpression (left.under .left :: (operator ++ right))),
          ts⟩
      else ⟨before, some left, ts⟩

/-- Operands joined by operators that bind at least as tightly as `power`. -/
def binaryWithin : Nat → Nat → List Token → OperandReading
  | 0, _, ts => ⟨[], none, ts⟩
  | depth + 1, power, ts =>
    match primaryWithin depth ts with
    | ⟨before, none, ts⟩ => ⟨before, none, ts⟩
    | ⟨before, some left, ts⟩ =>
      let (operand, ts) := joinWithin depth power left ts
      ⟨before, some operand, ts⟩

/-- What comes of `left` and the operators after it that bind at least as tightly as `power`. -/
def joinWithin : Nat → Nat → Item → List Token → Item × List Token
  | 0, _, left, ts => (left, ts)
  | depth + 1, power, left, ts =>
    match (ahead? ts).bind bindingPower? with
    | none => (left, ts)
    | some p =>
      if power ≤ p then
        let (operator, ts) := take (some .operator) ts
        let (right, ts) := (binaryWithin depth (p + 1) ts).orMissing (some .right)
        joinWithin depth power
          (.node none .binaryExpression (left.under .left :: (operator ++ right))) ts
      else (left, ts)

/-- An operand without operators of its own. -/
def primaryWithin : Nat → List Token → OperandReading
  | 0, ts => ⟨[], none, ts⟩
  | depth + 1, ts =>
    match comments ts with
    | (before, []) => ⟨before, none, []⟩
    | (before, t :: rest) =>
      match t.kind with
      | .identifier =>
        if ahead? rest = some .leftParen then
          let (between, rest) := comments rest
          let (arguments, rest) := parenthesized expressionFirst
            (fun ts =>
              let r := expressionWithin depth ts
              (r.items, r.operand.isSome)) rest
          ⟨before, some (.node none .callExpression (.token (some .function) t ::
            (between ++ [Item.node (some .arguments) .argumentList arguments]))), rest⟩
        else ⟨before, some (.token none t), rest⟩
      | .numberLiteral => ⟨before, some (.token none t), rest⟩
      | .quote =>
        let (literal, rest) := stringLiteral t rest
        ⟨before, some literal, rest⟩
      | .leftParen =>
        let (inner, rest) := (expressionWithin depth rest).orMissing none
        let (closing, rest) := expect .rightParen none rest
        ⟨before, some (.node none .parenthesizedExpression (.token none t :: (inner ++ closing))),
          rest⟩
      | _ => ⟨before, none, t :: rest⟩

end

/-- A depth that no expression among `count` tokens goes beyond. -/
def depthBound (count : Nat) : Nat := 4 * count + 4

/-- An expression, if the next token starts one. -/
def expression (ts : List Token) : OperandReading := expressionWithin (depthBound ts.length) ts

end Reparse.C
