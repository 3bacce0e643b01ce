import Reparse.C.Event
import Reparse.C.Reader
import Reparse.Interrupt

/-!
# Recorders

A recorder notes the events of a parse while tokens are taken from a source. A marker stands for a
node that is not complete; it is the number of the event with which the node starts. A marker that
is open is once completed, abandoned or suspended.

What number an event has is said by a numbering of the places of events: under `id` each is its own
number, while numbers of 32 bits, `Span.countOf`, begin again from 0 after the last of them.

The interrupt is checked for every token that is taken, comments apart. Once it has fired the
recorder is halted: no token comes next, so that whatever is being read ends as at the end of the
input. What was noted after the last bookmark is then dropped.
-/

namespace Reparse.C

/-- An open block: the start of its node, the field that the node will have, and the start of the
function definition that ends with it. -/
structure BlockMark where
  compound : Nat
  field : Option Field
  definition : Option Nat
deriving DecidableEq

/-- The starts of an open block, innermost first. -/
def BlockMark.starts (b : BlockMark) : List Nat := b.compound :: b.definition.toList

/-- Where a parse can be resumed: how many events are noted, the byte to go on from, the end of the
last token, and the blocks that are open, innermost first. -/
structure Bookmark where
  events : Nat
  byte : Nat
  lastStop : Nat
  blocks : List BlockMark

/-- A parse that is going on. -/
structure Recorder where
  events : List Event
  /-- The tokens still to come. -/
  tokens : List Token
  lastStop : Nat
  interrupt : Interrupt
  /-- The markers that are open, newest first. -/
  opened : List Nat
  /-- The blocks that are open, innermost first. -/
  blocks : List BlockMark
  bookmark : Bookmark
  /-- The number of events from which the parse was resumed; until a bookmark is set beyond it the
  interrupt is of no effect. -/
  resumedAt : Option Nat
  isHalted : Bool

namespace Event

/-- The event to which event number `i` refers. -/
def target? (i : Nat) : Event → Option Nat
  | start _ _ (some distance) => some (i + distance)
  | _ => none

/-- The events to which some events refer, which are numbered from `i` on. -/
def targets (i : Nat) : List Event → List Nat
  | [] => []
  | e :: rest => (e.target? i).toList ++ targets (i + 1) rest

end Event

namespace Recorder

variable (number : Nat → Nat) (probes : Nat → Probe) (r : Recorder)

/-- Notes an event. -/
def push (e : Event) : Recorder := { r with events := r.events ++ [e] }

/-- Notes a token that was taken. -/
def pushToken (field : Option Field) (t : Token) (isExtra : Bool) : Recorder :=
  { r.push (.token field t isExtra) with lastStop := t.stop }

/-- Takes the comments that come next. -/
def takeComments : Recorder :=
  (r.tokens.takeWhile (·.isComment)).foldl (fun r t => r.pushToken none t true)
    { r with tokens := r.tokens.dropWhile (·.isComment) }

/-- The kind of the next token that is no comment; the comments before it are taken. -/
def current : Option Terminal × Recorder :=
  if r.isHalted then (none, r)
  else (r.takeComments.tokens.head?.map (·.kind), r.takeComments)

/-- The kind of the next token that is no comment. -/
def peek : Option Terminal := if r.isHalted then none else ahead? r.tokens

/-- Whether the interrupt can halt the parse. -/
def mayHalt : Bool := r.resumedAt.all (· < r.bookmark.events)

/-- Checks the interrupt. -/
def poll : Recorder :=
  let interrupt := r.interrupt.poll probes
  { r with
    interrupt := interrupt
    isHalted := r.isHalted || (interrupt.isHalted && r.mayHalt) }

/-- Takes the next token that is no comment, if there is one, and gives the number of its event. -/
def bump (field : Option Field) : Nat × Recorder :=
  match r.current with
  | (none, r) => (number r.events.length, r)
  | (some _, r) =>
    match r.tokens with
    | [] => (number r.events.length, r)
    | t :: rest =>
      (number r.events.length, ({ r with tokens := rest }.poll probes).pushToken field t false)

/-- Notes a start and opens a marker for it. -/
def pushStart : Nat × Recorder :=
  (number r.events.length, { r.push .tombstone with opened := number r.events.length :: r.opened })

/-- Opens a marker where the next token stands; the comments before it are taken. -/
def start : Nat × Recorder := (if r.isHalted then r else r.takeComments).pushStart number

/-- The events to which something refers: open markers, open blocks, blocks of the bookmark, and
starts whose outer start is noted later. -/
def references : List Nat :=
  r.opened ++ (r.blocks ++ r.bookmark.blocks).flatMap BlockMark.starts ++ Event.targets 0 r.events

/-- Whether nothing refers to an event from number `index` on, the bookmark included. -/
def isFree (index : Nat) : Bool :=
  decide (r.bookmark.events ≤ index) && r.references.all (· < index)

/-- Opens a marker for a node that begins with the token of an event. -/
def precedeToken (event : Nat) : Except Misuse (Nat × Recorder) :=
  let index := min event r.events.length
  if r.isFree index then
    .ok (number index, { r with
      events := r.events.insertIdx index .tombstone
      opened := number index :: r.opened })
  else .error (.shifted index)

/-- Opens a marker for a node that begins where a completed one does. -/
def precede (completed : Nat) : Except Misuse (Nat × Recorder) :=
  let (outer, r) := r.pushStart number
  if outer < completed ∧ (r.events[completed]?).any (·.isStart) then .error (.overtaken completed)
  else .ok (outer, { r with events := r.events.modify completed (.within (outer - completed)) })

/-- Puts an event under a field. -/
def setField (event : Nat) (field : Field) : Recorder :=
  { r with events := r.events.modify event (.under field) }

/-- The recorder with one open marker less. -/
def close (marker : Nat) : Except Misuse Recorder :=
  if marker ∈ r.opened then .ok { r with opened := r.opened.erase marker }
  else .error (.notOpen marker)

/-- Completes the node of a marker. -/
def complete (marker : Nat) (rule : Rule) (field : Option Field) : Except Misuse Recorder := do
  let r ← r.close marker
  if (r.events[marker]?).any (·.isStart) then
    return { r with events := r.events.modify marker (.completed rule field) ++ [Event.finish] }
  else .error (.noStart marker)

/-- Gives up the node of a marker. -/
def abandon (marker : Nat) : Except Misuse Recorder := do
  let r ← r.close marker
  return if marker + 1 = r.events.length then { r with events := r.events.dropLast } else r

/-- Leaves the nodes of some markers to a later call. -/
def suspend (markers : List Nat) : Except Misuse Recorder := markers.foldlM Recorder.close r

/-- Enters a block. -/
def enterBlock (b : BlockMark) : Recorder := { r with blocks := b :: r.blocks }

/-- Leaves the innermost block. -/
def leaveBlock : Recorder := { r with blocks := r.blocks.tail }

/-- Sets the bookmark and checks the interrupt, unless the recorder is halted. -/
def save (source : Source) : Recorder :=
  if r.isHalted then r
  else
    let byte := (r.tokens.head?.map (·.start)).getD source.endOfInput
    { r with bookmark := ⟨r.events.length, byte, r.lastStop, r.blocks⟩ }.poll probes

end Recorder

end Reparse.C
