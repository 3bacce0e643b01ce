import Reparse.C.Expression

/-!
# Declarations and statements of C

A statement is read as a whole, except that a block is only opened: its statements are read one
by one by the document, so that a parse can stop between them. A declaration at the top of a
document may turn out to be the head of a function definition, whose body is then opened.
-/

namespace Reparse.C

/-- What reading a statement comes to. -/
inductive Piece where
  /-- The statement is complete. -/
  | whole (item : Item)
  /-- A block is opened by `brace`; if it is the body of a function, the parts of the definition
  before it are given too. -/
  | opened (definition : Option (List Item)) (brace : Token)

/-- The tokens of a piece, in order. -/
def Piece.tokens : Piece → List Token
  | whole item => item.tokens
  | opened definition brace => Item.tokensOf (definition.getD []) ++ [brace]

/-- The tokens that a parameter may start with. -/
def parameterFirst : List Terminal := [.primitiveType, .identifier]

/-- A parameter: a type and maybe a name. -/
def parameter (ts : List Token) : Reading × Bool :=
  match ahead? ts with
  | some kind =>
    if kind ∈ parameterFirst then
      let (type, ts) := expect .primitiveType (some .type) ts
      let (name, ts) := takeIf .identifier (some .declarator) ts
      (([.node none .parameterDeclaration (type ++ name)], ts), true)
    else (([], ts), false)
  | none => (([], ts), false)

/-- A name that is declared, alone, with a value, or with parameters; also says whether it had
parameters. -/
def declarator (ts : List Token) : Reading × Bool :=
  match comments ts with
  | (before, []) => ((before ++ [Item.missing (some .declarator) .identifier], []), false)
  | (before, t :: rest) =>
    if t.kind = .identifier then
      let name := Item.token (some .declarator) t
      let (between, rest) := comments rest
      match ahead? rest with
      | some .leftParen =>
        let (parameters, rest) := parenthesized parameterFirst parameter rest
        ((before ++ [Item.node (some .declarator) .functionDeclarator (name ::
          (between ++ [Item.node (some .parameters) .parameterList parameters]))], rest), true)
      | some .equals =>
        let (sign, rest) := take none rest
        let (value, rest) := (expression rest).orMissing (some .value)
        ((before ++ [Item.node (some .declarator) .initDeclarator (name ::
          (between ++ sign ++ value))], rest), false)
      | _ => ((before ++ name :: between, rest), false)
    else ((before ++ [Item.missing (some .declarator) .identifier], t :: rest), false)

/-- The declarators after the first, each after a comma, at most `count` of them. -/
def moreDeclarators : Nat → List Token → Reading
  | 0, ts => ([], ts)
  | count + 1, ts =>
    if ahead? ts = some .comma then
      let (comma, ts) := take none ts
      let ((items, ts), _) := declarator ts
      let (more, ts) := moreDeclarators count ts
      (comma ++ items ++ more, ts)
    else comments ts

/-- A declaration from its type `t` on; with `mayDefine`, a block after a declarator with
parameters makes it a function definition. -/
def declaration (mayDefine : Bool) (t : Token) (ts : List Token) : Piece × List Token :=
  let type := Item.token (some .type) t
  let ((first, ts), isFunction) := declarator ts
  let (between, ts) := comments ts
  let whole :=
    let (more, ts) := moreDeclarators ts.length ts
    let (semicolon, ts) := expect .semicolon none ts
    (Piece.whole (.node none .declaration (type :: (first ++ between ++ more ++ semicolon))), ts)
  match ts with
  | brace :: rest =>
    if mayDefine && isFunction && brace.kind == .leftBrace then
      (.opened (some (type :: (first ++ between))) brace, rest)
    else whole
  | [] => whole

/-- A return statement from its keyword `t` on. -/
def returnStatement (t : Token) (ts : List Token) : Item × List Token :=
  let (before, ts) := comments ts
  let (value, ts) := if ahead? ts = some .semicolon then ([], ts) else (expression ts).items
  let (semicolon, ts) := expect .semicolon none ts
  (.node none .returnStatement (.token none t :: (before ++ value ++ semicolon)), ts)

/-- An expression as a statement. -/
def expressionStatement (ts : List Token) : Item × List Token :=
  let (value, ts) := (expression ts).items
  let (semicolon, ts) := expect .semicolon none ts
  (.node none .expressionStatement (value ++ semicolon), ts)

/-- The statement that starts with the token `t`, which is no comment. A token that starts no
statement is an error by itself. -/
def statement (t : Token) (ts : List Token) : Piece × List Token :=
  match t.kind with
  | .primitiveType => declaration false t ts
  | .leftBrace => (.opened none t, ts)
  | .returnKeyword => (returnStatement t ts).map .whole id
  | .semicolon => (.whole (.node none .expressionStatement [.token none t]), ts)
  | .unknown => (.whole (.token none t), ts)
  | kind =>
    if kind ∈ expressionFirst then (expressionStatement (t :: ts)).map .whole id
    else (.whole (.node none .error [.token none t]), ts)

/-- The statement or function definition that starts with the token `t` at the top of a
document. -/
def topLevel (t : Token) (ts : List Token) : Piece × List Token :=
  if t.kind = .primitiveType then declaration true t ts else statement t ts

end Reparse.C
