import Reparse.C.Item

/-!
# Readers

A reader takes tokens from the front of a list and gives the items that it made of them, together
with the tokens that are left. Comments may stand anywhere: a reader that looks at the next
token takes the comments before it as items of the node that is being read.
-/

namespace Reparse.C

/-- What a reader gives: the items it read and the tokens it left. -/
abbrev Reading : Type := List Item × List Token

/-- Whether a token is a comment. -/
def Token.isComment (t : Token) : Bool := t.kind == .comment

/-- The comments at the front. -/
def comments (ts : List Token) : Reading :=
  ((ts.takeWhile (·.isComment)).map (.token none), ts.dropWhile (·.isComment))

/-- The kind of the first token that is no comment; none at the end of the input. -/
def ahead? (ts : List Token) : Option Terminal :=
  (ts.dropWhile (·.isComment)).head?.map (·.kind)

/-- The next token, under a field, and the comments before it. -/
def take (field : Option Field) (ts : List Token) : Reading :=
  match comments ts with
  | (before, []) => (before, [])
  | (before, t :: rest) => (before ++ [Item.token field t], rest)

/-- The next token, if it is of the given kind. -/
def takeIf (kind : Terminal) (field : Option Field) (ts : List Token) : Reading :=
  if ahead? ts = some kind then take field ts else comments ts

/-- The next token, if it is of the given kind, and otherwise a missing token of that kind. -/
def expect (kind : Terminal) (field : Option Field) (ts : List Token) : Reading :=
  if ahead? ts = some kind then take field ts
  else
    let (before, rest) := comments ts
    (before ++ [Item.missing field kind], rest)

/-- The elements of a list up to its closing parenthesis or to a token that fits nothing, at most
`count` of them. An element is read by `element`, which also says whether there was one, and
starts with a token in `first`. A comma in place of an element is an error; a comma between
elements that is not there is missing. -/
def elements (first : List Terminal) (element : List Token → Reading × Bool) :
    Nat → List Token → Reading
  | 0, ts => ([], ts)
  | count + 1, ts =>
    match comments ts with
    | (before, []) => (before, [])
    | (before, t :: rest) =>
      if t.kind = .rightParen then (before, t :: rest)
      else if t.kind = .comma then
        let (more, rest) := elements first element count rest
        (before ++ .node none .error [.token none t] :: more, rest)
      else
        let ((items, rest), isElement) := element (t :: rest)
        if isElement then
          match comments rest with
          | (after, []) => (before ++ items ++ after, [])
          | (after, u :: rest) =>
            if u.kind = .comma then
              let (more, rest) := elements first element count rest
              (before ++ items ++ after ++ .token none u :: more, rest)
            else if u.kind ∈ first then
              let (more, rest) := elements first element count (u :: rest)
              (before ++ items ++ after ++ .missing none .comma :: more, rest)
            else (before ++ items ++ after, u :: rest)
        else (before ++ items, rest)

/-- A list in parentheses, from its opening parenthesis on. -/
def parenthesized (first : List Terminal) (element : List Token → Reading × Bool)
    (ts : List Token) : Reading :=
  let (opening, ts) := take none ts
  let (items, ts) := elements first element (ts.length + 1) ts
  let (closing, ts) := expect .rightParen none ts
  (opening ++ items ++ closing, ts)

end Reparse.C
