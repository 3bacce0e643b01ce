import Reparse.C.Statement
import Reparse.C.Recorder

/-!
# Scripts

A grammar as what it asks of a recorder, request by request, where what it asks next depends on the
answers. For every reader of statements and their parts there is a script that takes the same tokens
and notes events where the reader makes items. Loops and recursions are bounded by `room`, which no
parse of at most that many tokens comes up to.
-/

namespace Reparse.C

/-- What a grammar asks of a recorder. -/
inductive Request where
  | current
  | peek
  | bump (field : Option Field)
  | missing (kind : Terminal) (field : Option Field)
  | start
  | precedeToken (event : Nat)
  | precede (completed : Nat)
  | setField (event : Nat) (field : Field)
  | complete (marker : Nat) (rule : Rule) (field : Option Field)
  | abandon (marker : Nat)

namespace Request

/-- What a request is answered with. -/
def Answer : Request → Type
  | current | peek => Option Terminal
  | bump _ | start | precedeToken _ | precede _ => Nat
  | missing .. | setField .. | complete .. | abandon _ => Unit

/-- The answer of a recorder, and the recorder after it. -/
def perform (number : Nat → Nat) (probes : Nat → Probe) (r : Recorder) :
    (q : Request) → Except Misuse (q.Answer × Recorder)
  | current => .ok r.current
  | peek => .ok (r.peek, r)
  | bump field => .ok (r.bump number probes field)
  | missing kind field => .ok ((), r.push (.missing field kind))
  | start => .ok (r.start number)
  | precedeToken event => r.precedeToken number event
  | precede completed => r.precede number completed
  | setField event field => .ok ((), r.setField event field)
  | complete marker rule field => (r.complete marker rule field).map ((), ·)
  | abandon marker => (r.abandon marker).map ((), ·)

end Request

/-- A sequence of requests that ends with an `α`. -/
inductive Script (α : Type) where
  | done (a : α)
  | ask (q : Request) (more : q.Answer → Script α)

/-- An operand that was read: a node, by its start, or a token, by its event. -/
inductive Operand where
  | node (start : Nat)
  | token (event : Nat)

namespace Script

variable {α β : Type}

/-- One script after another. -/
def bind : Script α → (α → Script β) → Script β
  | done a, f => f a
  | ask q more, f => ask q fun a => (more a).bind f

instance : Monad Script where
  pure := done
  bind := bind

/-- What a script ends with, and the recorder that it leaves. -/
def exec (number : Nat → Nat) (probes : Nat → Probe) :
    Script α → Recorder → Except Misuse (α × Recorder)
  | done a, r => .ok (a, r)
  | ask q more, r => (q.perform number probes r).bind fun (a, r) => (more a).exec number probes r

/-! ## Requests -/

def current : Script (Option Terminal) := ask .current done

def peek : Script (Option Terminal) := ask .peek done

def bump (field : Option Field) : Script Nat := ask (.bump field) done

def missing (kind : Terminal) (field : Option Field) : Script Unit := ask (.missing kind field) done

def start : Script Nat := ask .start done

def precedeToken (event : Nat) : Script Nat := ask (.precedeToken event) done

def precede (completed : Nat) : Script Nat := ask (.precede completed) done

def setField (event : Nat) (field : Field) : Script Unit := ask (.setField event field) done

def complete (marker : Nat) (rule : Rule) (field : Option Field) : Script Unit :=
  ask (.complete marker rule field) done

def abandon (marker : Nat) : Script Unit := ask (.abandon marker) done

/-! ## Tokens and lists -/

/-- Whether a token of the given kind comes next. -/
def comes (kind : Terminal) : Script Bool := do return (← current) = some kind

/-- Takes the next token. -/
def take (field : Option Field) : Script Unit := do
  let _ ← bump field

/-- Takes the next token if it is of the given kind, and says whether it is. -/
def takeIf (kind : Terminal) (field : Option Field) : Script Bool := do
  if ← comes kind then
    take field
    return true
  else return false

/-- Takes the next token if it is of the given kind, and otherwise notes that it is missing. -/
def expect (kind : Terminal) (field : Option Field) : Script Unit := do
  if ← comes kind then take field else missing kind field

/-- A node of which `body` reads the parts; gives its start. -/
def node (rule : Rule) (field : Option Field) (body : Script Unit) : Script Nat := do
  let marker ← start
  body
  complete marker rule field
  return marker

/-- The elements of a list up to its closing parenthesis, at most `count` of them. -/
def elements (first : List Terminal) (element : Script Bool) : Nat → Script Unit
  | 0 => return
  | count + 1 => do
    let ahead ← current
    if ahead = some .rightParen ∨ ahead = none then return
    else if ahead = some .comma then
      let _ ← node .error none (take none)
      elements first element count
    else if ← element then
      if ← takeIf .comma none then elements first element count
      else if (← current).any (· ∈ first) then
        missing .comma none
        elements first element count

/-- A list in parentheses. -/
def parenthesized (room : Nat) (first : List Terminal) (element : Script Bool) : Script Unit := do
  take none
  elements first element room
  expect .rightParen none

end Script

/-! ## Expressions -/

namespace Operand

/-- Puts an operand under a field. -/
def setField (field : Field) : Operand → Script Unit
  | node start => Script.setField start field
  | token event => Script.setField event field

/-- Opens a marker for a node that begins with an operand. -/
def precede : Operand → Script Nat
  | node start => Script.precede start
  | token event => Script.precedeToken event

end Operand

namespace Script

/-- Puts what was read under a field, or notes that an identifier is missing. -/
def orMissing (field : Option Field) : Option Operand → Script Unit
  | none => missing .identifier field
  | some operand =>
    match field with
    | none => return
    | some field => operand.setField field

/-- A node that begins with an operand, which it has under a field, and of which `body` reads the
other parts; gives its start. -/
def around (rule : Rule) (field : Field) (left : Operand) (body : Script Unit) : Script Nat := do
  left.setField field
  let marker ← left.precede
  body
  complete marker rule none
  return marker

/-- A node that begins with an operand and goes on with an operator and what `right` reads. -/
def operation (rule : Rule) (left : Operand) (right : Script (Option Operand)) : Script Operand := do
  return .node <| ← around rule .left left do
    take (some .operator)
    orMissing (some .right) (← right)

/-- What comes of a name: a call if an opening parenthesis follows. -/
def nameOrCall (room : Nat) (argument : Script Bool) (name : Operand) : Script Operand := do
  if (← peek) = some .leftParen then
    return .node <| ← around .callExpression .function name do
      let _ ← node .argumentList (some .arguments) (parenthesized room expressionFirst argument)
      return
  else return name

/-- A string. -/
def stringLiteral : Script Operand := do
  return .node <| ← node .stringLiteral none do
    take none
    let _ ← takeIf .stringContent none
    expect .quote none

mutual

/-- An expression. -/
def expressionWithin (room : Nat) : Nat → Script (Option Operand)
  | 0 => return none
  | depth + 1 => do
    match ← binaryWithin room depth 0 with
    | none => return none
    | some left =>
      if (← peek) = some .equals then
        return some (← operation .assignmentExpression left (expressionWithin room depth))
      else return some left

/-- Operands joined by operators that bind at least as tightly as `power`. -/
def binaryWithin (room : Nat) : Nat → Nat → Script (Option Operand)
  | 0, _ => return none
  | depth + 1, power => do
    match ← primaryWithin room depth with
    | none => return none
    | some left => return some (← joinWithin room depth power left)

/-- What comes of `left` and the operators after it that bind at least as tightly as `power`. -/
def joinWithin (room : Nat) : Nat → Nat → Operand → Script Operand
  | 0, _, left => return left
  | depth + 1, power, left => do
    match (← peek).bind bindingPower? with
    | none => return left
    | some p =>
      if power ≤ p then
        joinWithin room depth power
          (← operation .binaryExpression left (binaryWithin room depth (p + 1)))
      else return left

/-- An operand without operators of its own. -/
def primaryWithin (room : Nat) : Nat → Script (Option Operand)
  | 0 => return none
  | depth + 1 => do
    match ← current with
    | some .identifier =>
      let name ← bump none
      let argument := do return (← expressionWithin room depth).isSome
      return some (← nameOrCall room argument (.token name))
    | some .numberLiteral => return some (.token (← bump none))
    | some .quote => return some (← stringLiteral)
    | some .leftParen =>
      return some <| .node <| ← node .parenthesizedExpression none do
        take none
        orMissing none (← expressionWithin room depth)
        expect .rightParen none
    | _ => return none

end

/-- An expression, if the next token starts one. -/
def expression (room : Nat) : Script (Option Operand) := expressionWithin room (depthBound room)

/-! ## Declarations and statements -/

/-- A parameter. -/
def parameter : Script Bool := do
  if (← current).any (· ∈ parameterFirst) then
    let _ ← node .parameterDeclaration none do
      expect .primitiveType (some .type)
      let _ ← takeIf .identifier (some .declarator)
    return true
  else return false

/-- A name that is declared; says whether it had parameters. -/
def declarator (room : Nat) : Script Bool := do
  if ← comes .identifier then
    let marker ← start
    take (some .declarator)
    match ← current with
    | some .leftParen =>
      let _ ← node .parameterList (some .parameters) (parenthesized room parameterFirst parameter)
      complete marker .functionDeclarator (some .declarator)
      return true
    | some .equals =>
      take none
      orMissing (some .value) (← expression room)
      complete marker .initDeclarator (some .declarator)
      return false
    | _ =>
      abandon marker
      return false
  else
    missing .identifier (some .declarator)
    return false

/-- The declarators after the first, at most `count` of them. -/
def moreDeclarators (room : Nat) : Nat → Script Unit
  | 0 => return
  | count + 1 => do
    if ← takeIf .comma none then
      let _ ← declarator room
      moreDeclarators room count

/-- Opens a block and gives its starts. -/
def block (field : Option Field) (definition : Option Nat) : Script BlockMark := do
  let marker ← start
  take none
  return ⟨marker, field, definition⟩

/-- A declaration; with `mayDefine`, a block after a declarator with parameters makes it a function
definition, and is opened. -/
def declaration (room : Nat) (mayDefine : Bool) : Script (Option BlockMark) := do
  let marker ← start
  take (some .type)
  let isFunction ← declarator room
  if ← (if mayDefine && isFunction then comes .leftBrace else return false) then
    return some (← block (some .body) (some marker))
  else
    moreDeclarators room room
    expect .semicolon none
    complete marker .declaration none
    return none

/-- A return statement. -/
def returnStatement (room : Nat) : Script Nat :=
  node .returnStatement none do
    take none
    unless ← comes .semicolon do
      let _ ← expression room
    expect .semicolon none

/-- A statement, of which a block is only opened. -/
def statement (room : Nat) : Script (Option BlockMark) := do
  match ← current with
  | some .primitiveType => declaration room false
  | some .leftBrace => return some (← block none none)
  | some .returnKeyword =>
    let _ ← returnStatement room
    return none
  | some .semicolon =>
    let _ ← node .expressionStatement none (take none)
    return none
  | some .unknown =>
    take none
    return none
  | some kind =>
    if kind ∈ expressionFirst then
      let _ ← node .expressionStatement none do
        let _ ← expression room
        expect .semicolon none
    else
      let _ ← node .error none (take none)
    return none
  | none =>
    let _ ← node .error none (take none)
    return none

/-- What may stand at the top of a document. -/
def topLevel (room : Nat) : Script (Option BlockMark) := do
  if ← comes .primitiveType then declaration room true else statement room

/-- The end of a block. -/
def endOfBlock (b : BlockMark) : Script Unit := do
  expect .rightBrace none
  complete b.compound .compoundStatement b.field
  match b.definition with
  | none => return
  | some definition => complete definition .functionDefinition none

end Script

end Reparse.C
