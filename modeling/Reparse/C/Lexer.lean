import Reparse.C.Vocabulary
import Reparse.Source.Basic
import Reparse.Text.Blank

/-!
# Tokens of C

The included characters of a source fall into tokens and blanks. A token never leaves the
included range in which it starts: within a token, the end of the range reads as the end of the
input. Where a token ends is decided by at most one character after it, whose width the token
records.

Text between double quotes is lexed in a mode of its own, which the opening quote begins and
which the closing quote or the end of the line ends.
-/

namespace Reparse.C

/-- A token with its stretch of the document, in bytes. -/
structure Token where
  kind : Terminal
  start : Nat
  stop : Nat
  /-- The width of the character after the token, 0 at the end of the input. -/
  lookahead : Nat
deriving DecidableEq, Repr

/-- Whether a string is being read. -/
inductive Mode where
  | plain
  | inString
deriving DecidableEq, Repr

namespace Lexer

/-- Whether a character may start an identifier. -/
def isWordStart (c : Char) : Bool := c.isAlpha || c == '_'

/-- Whether a character may go on an identifier. -/
def isWordPart (c : Char) : Bool := c.isAlphanum || c == '_'

/-- Whether a character may go on a number. -/
def isNumberPart (c : Char) : Bool := c.isAlphanum || c == '.' || c == '_'

/-- The names of types that are built in. -/
def primitiveTypes : List String :=
  ["int", "char", "float", "double", "void", "long", "short", "unsigned", "signed", "bool"]

/-- The kind of a word. -/
def wordKind (word : List Char) : Terminal :=
  let text := String.ofList word
  if text = "return" then .returnKeyword
  else if text ∈ primitiveTypes then .primitiveType
  else .identifier

/-- The characters at the front of `cs` that lie in a range and satisfy `p`. -/
def run (range : Nat) (p : Char → Bool) (cs : List SourceChar) : List SourceChar :=
  cs.takeWhile fun c => c.range == range && p c.char

/-- The character at the front of `cs`, if it lies in a range. -/
def next? (range : Nat) (cs : List SourceChar) : Option Char :=
  (cs.head?.filter fun c => c.range == range).map (·.char)

/-- The number of characters up to and including the end of a block comment. -/
def blockComment (range : Nat) : List SourceChar → Nat
  | [] => 0
  | c :: cs =>
    if c.range ≠ range then 0
    else if c.char = '*' ∧ next? range cs = some '/' then 2
    else blockComment range cs + 1

/-- The kind and the number of characters of the token that starts with `c` and may go on with
`cs`. -/
def scan (c : SourceChar) (cs : List SourceChar) : Terminal × Nat :=
  match c.char with
  | ';' => (.semicolon, 1)
  | '=' => (.equals, 1)
  | ',' => (.comma, 1)
  | '(' => (.leftParen, 1)
  | ')' => (.rightParen, 1)
  | '{' => (.leftBrace, 1)
  | '}' => (.rightBrace, 1)
  | '+' => (.plus, 1)
  | '-' => (.minus, 1)
  | '*' => (.star, 1)
  | '"' => (.quote, 1)
  | '/' =>
    match next? c.range cs with
    | some '/' => (.comment, (run c.range (· != '\n') cs).length + 1)
    | some '*' => (.comment, blockComment c.range cs.tail + 2)
    | _ => (.slash, 1)
  | first =>
    if first.isDigit then (.numberLiteral, (run c.range isNumberPart cs).length + 1)
    else if isWordStart first then
      let more := run c.range isWordPart cs
      (wordKind (first :: more.map (·.char)), more.length + 1)
    else (.unknown, 1)

/-- The number of characters of the text of a string: up to its closing quote or the end of the
line, where a backslash takes the character after it along. -/
def stringText (range : Nat) : List SourceChar → Nat
  | [] => 0
  | [c] => if c.range ≠ range ∨ c.char = '"' ∨ c.char = '\n' then 0 else 1
  | c :: d :: cs =>
    if c.range ≠ range ∨ c.char = '"' ∨ c.char = '\n' then 0
    else if c.char = '\\' ∧ d.range = range ∧ d.char ≠ '\n' then stringText range cs + 2
    else stringText range (d :: cs) + 1

/-- The token of the first `size` characters of `c :: cs`. -/
def token (kind : Terminal) (size : Nat) (c : SourceChar) (cs : List SourceChar) : Token where
  kind := kind
  start := c.byte
  stop := ((cs.take (size - 1)).getLast?.getD c).stop
  lookahead := ((cs.drop (size - 1)).head?.map (·.width)).getD 0

/-- The next token outside strings, the mode after it, and the characters after it. -/
def lexPlain (cs : List SourceChar) : Option (Token × Mode × List SourceChar) :=
  match cs.dropWhile fun c => Text.isBlank c.char with
  | [] => none
  | c :: rest =>
    let (kind, size) := scan c rest
    some (token kind size c rest, if kind = .quote then .inString else .plain,
      rest.drop (size - 1))

/-- The next token, the mode after it, and the characters after it; none at the end of the
input. -/
def lex (mode : Mode) (cs : List SourceChar) : Option (Token × Mode × List SourceChar) :=
  match mode, cs with
  | .inString, c :: rest =>
    if c.char = '\n' then lexPlain cs
    else if c.char = '"' then some (token .quote 1 c rest, .plain, rest)
    else
      let size := stringText c.range cs
      some (token .stringContent size c rest, .inString, rest.drop (size - 1))
  | _, _ => lexPlain cs

/-- The first tokens of some characters, at most `count` of them. -/
def tokensUpTo : Nat → Mode → List SourceChar → List Token
  | 0, _, _ => []
  | count + 1, mode, cs =>
    match lex mode cs with
    | none => []
    | some (t, mode, rest) => t :: tokensUpTo count mode rest

/-- The tokens of some characters, which do not start inside a string. There are no more tokens
than characters. -/
def tokens (cs : List SourceChar) : List Token := tokensUpTo cs.length .plain cs

end Lexer

/-- The tokens of a source from the first character at or after `byte`. -/
def tokensFrom (s : Source) (byte : Nat) : List Token := Lexer.tokens (s.charsFrom byte)

end Reparse.C
