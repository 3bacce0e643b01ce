import Reparse.Source.Decode

/-!
# Encoding

The bytes of a text, as UTF-8 and as little-endian UTF-16.
-/

namespace Reparse

namespace Encoding

/-- The 16-bit units of a character: itself, or a pair of surrogates. -/
def unitsOf (c : Char) : List Nat :=
  let code := c.toNat
  if code < 0x10000 then [code]
  else [0xD800 + (code - 0x10000) / 0x400, 0xDC00 + (code - 0x10000) % 0x400]

/-- The bytes of a character. -/
def bytesOf : Encoding → Char → List UInt8
  | .utf8, c => String.utf8EncodeChar c
  | .utf16, c => (unitsOf c).flatMap fun u => [.ofNat (u % 0x100), .ofNat (u / 0x100)]

/-- The byte at which character `i` of a text begins; where there is none, the end of the text. -/
def offset (e : Encoding) (text : List Char) (i : Nat) : Nat :=
  ((text.take i).flatMap e.bytesOf).length

end Encoding

/-- A text as a document. -/
def Document.ofChars (e : Encoding) (text : List Char) : Document := ⟨text.flatMap e.bytesOf, e⟩

end Reparse
