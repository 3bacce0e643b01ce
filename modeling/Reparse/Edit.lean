import Reparse.Span

/-!
# Edits

An edit says that the text from `start` to `oldEnd` was replaced by text that now ends at
`newEnd`. Positions, spans and trees move along an edit without looking at the text.
-/

namespace Reparse

/-- One replacement of text: `start` to `oldEnd` became `start` to `newEnd`. -/
structure Edit where
  start : Length
  oldEnd : Length
  newEnd : Length
deriving DecidableEq, Repr

namespace Edit

/-- The number of offsets that a text may be addressed by. -/
def offsets : Nat := 18446744073709551616

/-- The edit that replaces the bytes from `start` to `stop` of `text`, provided that the
replacement ends at an offset that exists. -/
def ofReplacement? (text : List UInt8) (start stop : Nat) (replacement : List UInt8) :
    Option Edit :=
  if start + replacement.length < offsets then
    let startPoint := Point.ofByte text start
    some {
      start := ⟨Span.countOf start, startPoint⟩
      oldEnd := ⟨Span.countOf stop, .ofByte text stop⟩
      newEnd := ⟨Span.countOf (start + replacement.length),
        startPoint + .ofByte replacement replacement.length⟩ }
  else none

/-- The text after the bytes from `start` to `stop` were replaced. -/
def applyTo (text : List UInt8) (start stop : Nat) (replacement : List UInt8) : List UInt8 :=
  text.take start ++ replacement ++ text.drop stop

/-- Whether nothing was removed. -/
def isInsertion (e : Edit) : Bool := e.oldEnd.bytes == e.start.bytes

/-- Whether nothing was removed and nothing was put in. -/
def isVoid (e : Edit) : Bool := e.isInsertion && e.newEnd.bytes == e.start.bytes

/-- Where a position at or after the old end goes. -/
def carry (e : Edit) (position : Length) : Length := e.newEnd + (position - e.oldEnd)

/-- Moves a position across the edit; a position inside the replaced text lands on its new
end. -/
def shift (e : Edit) (position : Length) : Length :=
  if e.oldEnd.bytes ≤ position.bytes then e.carry position
  else if e.start.bytes < position.bytes then e.newEnd
  else position

/-- The edit as seen from `origin`: ends that lie before it are moved onto it. -/
def relativeTo (e : Edit) (origin : Length) : Edit :=
  ⟨e.start.beyond origin, e.oldEnd.beyond origin, e.newEnd.beyond origin⟩

end Edit

namespace Span

/-- Moves the end of a span across an edit: an open end stays open, and an end inside the
replaced text falls back to its start. -/
def shiftStop (e : Edit) (stop : Length) : Length :=
  if e.oldEnd.bytes ≤ stop.bytes then
    if stop.bytes = limit then stop else e.carry stop
  else if e.start.bytes < stop.bytes then e.start
  else stop

/-- Moves the start of a span across an edit: a start inside the replaced text falls back to
the start of that text. -/
def shiftStart (e : Edit) (start : Length) : Length :=
  if e.oldEnd.bytes ≤ start.bytes then e.carry start
  else if e.start.bytes < start.bytes then e.start
  else start

/-- Moves a span across an edit; the span of the whole document stays what it is. -/
def shift (e : Edit) (s : Span) : Span :=
  if s = document then s else ⟨shiftStart e s.start, shiftStop e s.stop⟩

end Span

end Reparse
