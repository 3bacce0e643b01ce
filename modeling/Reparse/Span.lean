import Reparse.Extent

/-!
# Spans

A half-open stretch of a document, with its two ends in both coordinate systems. Spans say which
parts of a document are to be parsed and which parts of a tree have changed.
-/

namespace Reparse

/-- The stretch of a document from `start` up to, but not including, `stop`. -/
structure Span where
  start : Length
  stop : Length
deriving DecidableEq, Repr

namespace Span

/-- The span that covers every document. -/
def document : Span := ⟨.zero, .farthest⟩

/-- An offset into a text as a count: offsets are taken modulo the number of counts. -/
def countOf (offset : Nat) : Nat := offset % (limit + 1)

/-- The span between two offsets of UTF-8 text. -/
def ofBytes (text : List UInt8) (start stop : Nat) : Span :=
  ⟨⟨countOf start, .ofByte text start⟩, ⟨countOf stop, .ofByte text stop⟩⟩

/-- The first byte and the byte after the last, where an inverted span counts as empty. -/
def byteRange (s : Span) : Nat × Nat := (s.start.bytes, max s.stop.bytes s.start.bytes)

/-- Whether `byte` lies in the span. -/
def containsByte (s : Span) (byte : Nat) : Bool := s.start.bytes ≤ byte && byte < s.stop.bytes

/-- A span holds the bytes from its start up to, but not including, its stop. -/
theorem containsByte_iff {s : Span} {byte : Nat} :
    s.containsByte byte = true ↔ s.start.bytes ≤ byte ∧ byte < s.stop.bytes := by
  simp [containsByte]

end Span

end Reparse
