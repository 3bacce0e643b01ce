import Reparse.Source.Decode
import Reparse.Span

/-!
# Sources

A source is a document as a parser sees it: the characters inside the included ranges, each with
its place and the number of its range, and the rows of the whole document.
-/

namespace Reparse

/-- A character of a document that lies in an included range. -/
structure SourceChar where
  char : Char
  /-- The offset of its first byte. -/
  byte : Nat
  width : Nat
  /-- The number of the included range that holds it. Of this a source stores the `tag`. -/
  range : Nat
deriving DecidableEq, Repr

/-- The offset after the last byte of a character. -/
def SourceChar.stop (c : SourceChar) : Nat := c.byte + c.width

/-- What a source stores of the number of a range, in 32 bits. Characters of different ranges have
different tags as long as there are no more than 2 ^ 32 ranges. -/
def SourceChar.tag (c : SourceChar) : Nat := Span.countOf c.range

/-- A document with its included characters and the starts of its lines. -/
structure Source where
  document : Document
  chars : List SourceChar
  lineStarts : List Nat
  ranges : List Span

namespace Source

/-- The ranges to use where `ranges` are asked for: none means the whole document. -/
def effectiveRanges (ranges : List Span) : List Span :=
  if ranges.isEmpty then [.document] else ranges

/-- The starts of the lines after the first, in a text that starts at `byte`. -/
def laterLines (byte : Nat) : List Decoded → List Nat
  | [] => []
  | d :: rest =>
    let next := byte + d.width
    if d.char = '\n' then next :: laterLines next rest else laterLines next rest

/-- The characters that lie in a range, in a text that starts at `byte`. The ranges are those
from number `index` on; a range that ends at or before a character is left behind for good. -/
def keepIncluded (byte index : Nat) (ranges : List Span) : List Decoded → List SourceChar
  | [] => []
  | d :: rest =>
    let passed := (ranges.takeWhile fun r => r.stop.bytes ≤ byte).length
    match ranges.drop passed with
    | [] => []
    | r :: later =>
      let kept := keepIncluded (byte + d.width) (index + passed) (r :: later) rest
      if r.containsByte byte then ⟨d.char, byte, d.width, index + passed⟩ :: kept else kept

/-- A document restricted to some ranges. -/
def ofDocument (d : Document) (ranges : List Span) : Source :=
  let decoded := d.decode
  let ranges := effectiveRanges ranges
  ⟨d, keepIncluded 0 0 ranges decoded, 0 :: laterLines 0 decoded, ranges⟩

variable (s : Source)

/-- The number of bytes of the document. -/
def size : Nat := s.document.bytes.length

/-- The included characters from the first one at or after `byte`. -/
def charsFrom (byte : Nat) : List SourceChar := s.chars.dropWhile fun c => c.byte < byte

/-- The number of included characters before `byte`. -/
def charIndexAt (byte : Nat) : Nat := (s.chars.takeWhile fun c => c.byte < byte).length

/-- Where the last included character ends. -/
def endOfInput : Nat := (s.chars.getLast?.map (·.stop)).getD 0

/-- The row and column of an offset. -/
def pointAt (byte : Nat) : Point :=
  let lines := s.lineStarts.takeWhile (· ≤ byte)
  ⟨lines.length - 1, byte - lines.getLast?.getD 0⟩

/-- An offset as a position in both coordinate systems. -/
def positionAt (byte : Nat) : Length := ⟨byte, s.pointAt byte⟩

end Source

end Reparse
