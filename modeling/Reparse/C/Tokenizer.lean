import Reparse.C.Lexer

/-!
# The tokenizer

Lexing as it runs: a scanner moves over the included characters of a source, one at a time, and sees
no other character than the one it stands before. Within a token, the end of the included range in
which the token starts reads as the end of the input.

The end of the input is a lexeme without a kind.
-/

namespace Reparse.C

/-- What is read where no character is left. It may also be a character of the source. -/
def endChar : Char := '\x00'

/-- A place between the included characters of a source, and the place where the token that is being
read starts. -/
structure Scanner where
  source : Source
  index : Nat
  tokenStart : Nat

namespace Scanner

variable (s : Scanner)

/-- The character with a number, if it lies in the range in which the token starts. -/
def charAt? (index : Nat) : Option Char :=
  (s.source.chars[index]?.filter fun c => index == s.tokenStart ||
    s.source.chars[s.tokenStart]?.map (·.range) == some c.range).map (·.char)

/-- Whether no character of the token's range is left. -/
def isEnd : Bool := (s.charAt? s.index).isNone

/-- The character the scanner stands before. -/
def peek : Char := (s.charAt? s.index).getD endChar

/-- Begins a token. -/
def startToken : Scanner := { s with tokenStart := s.index }

/-- Takes the character the scanner stands before, if there is one. -/
def advance : Char × Scanner :=
  match s.charAt? s.index with
  | some c => (c, { s with index := s.index + 1 })
  | none => (endChar, s)

/-- The number of characters after the scanner. -/
def remaining : Nat := s.source.chars.length - s.index

variable {s}

/-- Past a character fewer are left. -/
theorem remaining_succ_lt {c : SourceChar} (h : s.source.chars[s.index]? = some c) :
    remaining { s with index := s.index + 1 } < s.remaining := by
  obtain ⟨hlt, -⟩ := List.getElem?_eq_some_iff.1 h
  simp only [remaining]
  omega

/-- A character that is taken is no longer left. -/
theorem remaining_advance_lt (h : s.isEnd = false) : s.advance.2.remaining < s.remaining := by
  obtain ⟨c, hc⟩ : ∃ c, s.charAt? s.index = some c :=
    Option.isSome_iff_exists.1 (by simpa [isEnd] using h)
  obtain ⟨e, he, -⟩ := Option.map_eq_some_iff.1 hc
  simpa only [advance, hc] using remaining_succ_lt (Option.eq_some_of_filter_eq_some he)

/-- To go on adds no character. -/
theorem remaining_advance_le : s.advance.2.remaining ≤ s.remaining := by
  cases h : s.isEnd with
  | false => exact Nat.le_of_lt (remaining_advance_lt h)
  | true =>
    have hnone : s.charAt? s.index = none := Option.isNone_iff_eq_none.1 h
    simp only [advance, hnone, Nat.le_refl]

/-- Goes past blanks, from one range to the next. -/
def skipBlanks (s : Scanner) : Scanner :=
  match _h : s.source.chars[s.index]? with
  | some c => if Text.isBlank c.char then skipBlanks { s with index := s.index + 1 } else s
  | none => s
termination_by s.remaining
decreasing_by exact remaining_succ_lt _h

/-- Takes characters as long as they satisfy `p`. -/
def advanceWhile (p : Char → Bool) (s : Scanner) : Scanner :=
  if _h : s.isEnd = false ∧ p s.peek = true then advanceWhile p s.advance.2 else s
termination_by s.remaining
decreasing_by exact remaining_advance_lt _h.1

/-- Takes characters up to and including the end of a block comment. -/
def closeComment (s : Scanner) : Scanner :=
  if _h : s.isEnd = false then
    if s.advance.1 = '*' ∧ s.advance.2.peek = '/' then s.advance.2.advance.2
    else closeComment s.advance.2
  else s
termination_by s.remaining
decreasing_by exact remaining_advance_lt _h

/-- Takes a block comment after its slash. -/
def blockComment (s : Scanner) : Scanner := s.advance.2.closeComment

/-- Takes the text of a string: up to its closing quote or the end of the line, where a backslash
takes the character after it along. -/
def stringText (s : Scanner) : Scanner :=
  if _h : s.isEnd = false then
    if s.peek = '"' ∨ s.peek = '\n' then s
    else if s.peek = '\\' then
      if s.advance.2.isEnd = false ∧ s.advance.2.peek ≠ '\n' then stringText s.advance.2.advance.2
      else stringText s.advance.2
    else stringText s.advance.2
  else s
termination_by s.remaining
decreasing_by
  · exact Nat.lt_of_le_of_lt remaining_advance_le (remaining_advance_lt _h)
  · exact remaining_advance_lt _h
  · exact remaining_advance_lt _h

variable (s)

/-- The number of characters of the token. -/
def tokenLength : Nat := s.index - s.tokenStart

/-- The characters of the token. -/
def tokenChars : List Char :=
  ((s.source.chars.drop s.tokenStart).take s.tokenLength).map (·.char)

/-- Where the token starts, in bytes. -/
def startByte : Nat := (s.source.chars[s.tokenStart]?.map (·.byte)).getD s.source.endOfInput

/-- Where the token stops, in bytes. -/
def stopByte : Nat :=
  if s.tokenStart < s.index then (s.source.chars[s.index - 1]?.map (·.stop)).getD s.startByte
  else s.startByte

/-- The width of the character after the token, which decided where the token ended. -/
def lookahead : Nat := (s.source.chars[s.index]?.map (·.width)).getD 0

/-- The kind of a word. No keyword has more than eight characters. -/
def keywordOrIdentifier : Terminal :=
  if 8 < s.tokenLength then .identifier else Lexer.wordKind s.tokenChars

end Scanner

/-- What the tokenizer gives: a token, or the end of the input if there is no kind. -/
structure Lexeme where
  kind : Option Terminal
  start : Nat
  stop : Nat
  lookahead : Nat
deriving DecidableEq, Repr

/-- The token that a scanner has read. -/
def Scanner.lexeme (s : Scanner) (kind : Option Terminal) : Lexeme :=
  ⟨kind, s.startByte, s.stopByte, s.lookahead⟩

/-- A scanner with the mode in which it reads. -/
structure Tokenizer where
  scanner : Scanner
  mode : Mode

namespace Tokenizer

variable (t : Tokenizer)

/-- Takes the token that starts at the scanner, which stands before no blank. -/
def kind : Option Terminal × Tokenizer :=
  if t.scanner.isEnd then (none, t) else
  let s := t.scanner.advance.2
  match t.scanner.advance.1 with
  | ';' => (some .semicolon, { t with scanner := s })
  | '=' => (some .equals, { t with scanner := s })
  | ',' => (some .comma, { t with scanner := s })
  | '(' => (some .leftParen, { t with scanner := s })
  | ')' => (some .rightParen, { t with scanner := s })
  | '{' => (some .leftBrace, { t with scanner := s })
  | '}' => (some .rightBrace, { t with scanner := s })
  | '+' => (some .plus, { t with scanner := s })
  | '-' => (some .minus, { t with scanner := s })
  | '*' => (some .star, { t with scanner := s })
  | '/' =>
    match s.peek with
    | '/' => (some .comment, { t with scanner := s.advanceWhile (· != '\n') })
    | '*' => (some .comment, { t with scanner := s.blockComment })
    | _ => (some .slash, { t with scanner := s })
  | '"' => (some .quote, ⟨s, .inString⟩)
  | first =>
    if first.isDigit then
      (some .numberLiteral, { t with scanner := s.advanceWhile Lexer.isNumberPart })
    else if Lexer.isWordStart first then
      let s := s.advanceWhile Lexer.isWordPart
      (some s.keywordOrIdentifier, { t with scanner := s })
    else (some .unknown, { t with scanner := s })

/-- The next token outside strings. -/
def lexPlain : Lexeme × Tokenizer :=
  let r := kind { t with scanner := t.scanner.skipBlanks.startToken }
  (r.2.scanner.lexeme r.1, r.2)

/-- The text of a string, or its closing quote. There is none at the end of the line or the input,
where the string is left. -/
def stringToken : Option Lexeme × Tokenizer :=
  let s := t.scanner.startToken
  if s.isEnd ∨ s.peek = '\n' then (none, ⟨s, .plain⟩)
  else if s.peek = '"' then (some (s.advance.2.lexeme (some .quote)), ⟨s.advance.2, .plain⟩)
  else (some (s.stringText.lexeme (some .stringContent)), { t with scanner := s.stringText })

/-- The next token, and the tokenizer after it. -/
def lex : Lexeme × Tokenizer :=
  match t.mode with
  | .plain => t.lexPlain
  | .inString =>
    match t.stringToken with
    | (some token, t) => (token, t)
    | (none, t) => t.lexPlain

/-- The tokenizer before the first character at or after `byte`. -/
def reset (source : Source) (byte : Nat) : Tokenizer :=
  let index := min (source.charIndexAt byte) source.chars.length
  ⟨⟨source, index, index⟩, .plain⟩

end Tokenizer

end Reparse.C
