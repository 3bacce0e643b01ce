import Reparse.Extent

/-!
# Decoding

Documents are bytes, and come as UTF-8 or as little-endian UTF-16. Decoding loses nothing: every
byte belongs to one character, where a byte or a unit that is no part of valid text stands for
the replacement character by itself. (An odd last byte of UTF-16 is no unit and is left over.)
-/

namespace Reparse

/-- How the bytes of a document are to be read. -/
inductive Encoding where
  | utf8
  /-- Little-endian units of 16 bits. -/
  | utf16
deriving DecidableEq, Repr

/-- The bytes of a document and how to read them. -/
structure Document where
  bytes : List UInt8
  encoding : Encoding
deriving DecidableEq, Repr

/-- A character and the number of bytes it takes. -/
structure Decoded where
  char : Char
  width : Nat
deriving DecidableEq, Repr

namespace Decode

/-- The character that stands for invalid bytes. -/
def replacement : Char := '\uFFFD'

/-- The last six bits of a continuation byte. -/
def continuation? (b : UInt8) : Option Nat :=
  if 0x80 ≤ b ∧ b ≤ 0xBF then some (b.toNat - 0x80) else none

/-- A scalar value of at least `least`, as a character of a given width. -/
def scalar? (least code width : Nat) : Option Decoded :=
  if least ≤ code ∧ code.isValidChar then some ⟨.ofNat code, width⟩ else none

/-- The character that starts with the byte `a`, followed by `rest`; none if there is no valid
one. -/
def sequence? (a : UInt8) (rest : List UInt8) : Option Decoded :=
  if a < 0x80 then some ⟨.ofNat a.toNat, 1⟩
  else if a < 0xC0 then none
  else do
    let b ← rest[0]? >>= continuation?
    if a < 0xE0 then scalar? 0x80 ((a.toNat - 0xC0) * 0x40 + b) 2
    else do
      let c ← rest[1]? >>= continuation?
      if a < 0xF0 then scalar? 0x800 (((a.toNat - 0xE0) * 0x40 + b) * 0x40 + c) 3
      else do
        let d ← rest[2]? >>= continuation?
        scalar? 0x10000 ((((a.toNat - 0xF0) * 0x40 + b) * 0x40 + c) * 0x40 + d) 4

/-- Decodes UTF-8, after passing over the first `skip` bytes. -/
def utf8From : Nat → List UInt8 → List Decoded
  | _, [] => []
  | skip + 1, _ :: rest => utf8From skip rest
  | 0, a :: rest =>
    let d := (sequence? a rest).getD ⟨replacement, 1⟩
    d :: utf8From (d.width - 1) rest

/-- The characters of UTF-8 text. -/
def utf8 (bytes : List UInt8) : List Decoded := utf8From 0 bytes

/-- The text of valid UTF-8 bytes. -/
def text? : Nat → List UInt8 → Option (List Char)
  | _, [] => some []
  | skip + 1, _ :: rest => text? skip rest
  | 0, a :: rest => do
    let d ← sequence? a rest
    let cs ← text? (d.width - 1) rest
    pure (d.char :: cs)

/-- The little-endian 16-bit units of some bytes. -/
def units : List UInt8 → List Nat
  | a :: b :: rest => (a.toNat + b.toNat * 0x100) :: units rest
  | _ => []

/-- The character that two units stand for together. -/
def pair? (high low : Nat) : Option Char :=
  if 0xD800 ≤ high ∧ high < 0xDC00 ∧ 0xDC00 ≤ low ∧ low < 0xE000 then
    some (.ofNat (0x10000 + (high - 0xD800) * 0x400 + (low - 0xDC00)))
  else none

/-- The character of a unit that stands by itself. -/
def single (unit : Nat) : Char := if unit.isValidChar then .ofNat unit else replacement

/-- Decodes 16-bit units. -/
def ofUnits : List Nat → List Decoded
  | [] => []
  | [u] => [⟨single u, 2⟩]
  | u :: v :: rest =>
    match pair? u v with
    | some c => ⟨c, 4⟩ :: ofUnits rest
    | none => ⟨single u, 2⟩ :: ofUnits (v :: rest)

/-- The characters of little-endian UTF-16 text. -/
def utf16 (bytes : List UInt8) : List Decoded := ofUnits (units bytes)

end Decode

namespace Document

/-- The characters of a document. -/
def decode (d : Document) : List Decoded :=
  match d.encoding with
  | .utf8 => Decode.utf8 d.bytes
  | .utf16 => Decode.utf16 d.bytes

end Document

end Reparse
