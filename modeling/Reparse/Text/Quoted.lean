import Reparse.Text.Visible

/-!
# Quoted text

Two ways to write text between quotes. `plainAscii` leaves only printable ASCII characters
standing and is used for literal tokens; `readable` leaves visible characters of every script
standing and is used for names. Both write any other character by its code point, a few by a
letter.
-/

namespace Reparse.Text

/-- The lower-case hexadecimal digits of a code point, without leading zeros. -/
def hex (code : Nat) : String := String.ofList (Nat.toDigits 16 code)

/-- A character written by its code point. -/
def byCode (c : Char) : String := "\\u\x7b" ++ hex c.toNat ++ "\x7d"

/-- One character of a literal: the usual letters for tab, return and newline, a backslash
before quotes and backslashes, and code points beyond printable ASCII. -/
def asciiPiece (c : Char) : String :=
  if c = '\t' then "\\t"
  else if c = '\r' then "\\r"
  else if c = '\n' then "\\n"
  else if c = '\'' ∨ c = '"' ∨ c = '\\' then "\\" ++ c.toString
  else if 0x20 ≤ c.toNat ∧ c.toNat ≤ 0x7E then c.toString
  else byCode c

/-- Text in which only printable ASCII characters stand for themselves. -/
def plainAscii (s : String) : String := String.join (s.toList.map asciiPiece)

/-- One character of a name: like `asciiPiece`, but apostrophes and visible characters of every
script stand for themselves, and NUL has a letter. -/
def readablePiece (c : Char) : String :=
  if c.toNat = 0 then "\\0"
  else if c = '\t' then "\\t"
  else if c = '\r' then "\\r"
  else if c = '\n' then "\\n"
  else if c = '"' ∨ c = '\\' then "\\" ++ c.toString
  else if isVisible c then c.toString
  else byCode c

/-- Text between double quotes. -/
def readable (s : String) : String :=
  "\"" ++ String.join (s.toList.map readablePiece) ++ "\""

end Reparse.Text
