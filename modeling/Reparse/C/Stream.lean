import Reparse.C.Engine
import Reparse.C.Script

/-!
# The event stream of a parse

A call of the parser of C as a recorder sees it. The loops over the items of a document and of its
blocks go round by round: a round ends a block, takes a node over from the old tree, or reads one
statement, of which a block is only opened. Before every round a bookmark is set. If the interrupt
has fired, the blocks that are open and the document are suspended and the events up to the bookmark
are handed out; else the document is completed at the end of the input and becomes a tree.
-/

namespace Reparse.C

/-- What a call hands out that is halted: the events up to its last bookmark, the byte and the end of
the last token there, and the blocks that were open, innermost first. -/
structure Suspension where
  events : List Event
  byte : Nat
  lastStop : Nat
  blocks : List BlockMark

namespace Recorder

/-- The marker of the document. -/
def root : Nat := 0

/-- The recorder of a call that starts, or goes on from where an earlier one was halted. -/
def ofProgress (source : Source) (interrupt : Interrupt) : Option Suspension → Recorder
  | none => {
      events := [.tombstone]
      tokens := tokensFrom source 0
      lastStop := 0
      interrupt := interrupt
      opened := [root]
      blocks := []
      bookmark := ⟨1, 0, 0, []⟩
      resumedAt := none
      isHalted := false }
  | some s => {
      events := s.events
      tokens := tokensFrom source s.byte
      lastStop := s.lastStop
      interrupt := interrupt
      opened := s.blocks.flatMap BlockMark.starts ++ [root]
      blocks := s.blocks
      bookmark := ⟨s.events.length, s.byte, s.lastStop, s.blocks⟩
      resumedAt := some s.events.length
      isHalted := false }

variable (number : Nat → Nat) (probes : Nat → Probe) (source : Source) (oldTree : Option Tree)
  (room : Nat)

/-- The recorder after a node of the old tree by one of the given rules was taken over, if one starts
with the next token. -/
def reuse? (allowed : List Rule) (r : Recorder) : Option Recorder :=
  match r.isHalted, r.tokens with
  | false, t :: _ =>
    (oldTree.bind fun tree => (tree.candidatesAt r.lastStop).find? fun n =>
      n.startByte == t.start && n.stopByte ≤ source.endOfInput &&
        allowed.any (·.symbol == n.symbol)).map fun n =>
      { r.push (.reused n.green) with
        lastStop := n.stopByte
        tokens := tokensFrom source n.stopByte }.poll probes
  | _, _ => none

/-- Takes over or reads what comes next inside the open blocks; gives the blocks that are open
then. -/
def advance (blocks : List BlockMark) (r : Recorder) :
    Except Misuse (List BlockMark × Recorder) :=
  match r.reuse? probes source oldTree (if blocks.isEmpty then reusableAtTop else reusableInBlock) with
  | some r => .ok (blocks, r)
  | none => do
    let script := if blocks.isEmpty then Script.topLevel room else Script.statement room
    match ← script.exec number probes r with
    | (none, r) => return (blocks, r)
    | (some b, r) => return (b :: blocks, r.enterBlock b)

/-- Ends the innermost block. -/
def endBlock (b : BlockMark) (outer : List BlockMark) (r : Recorder) :
    Except Misuse (List BlockMark × Recorder) := do
  let ((), r) ← (Script.endOfBlock b).exec number probes r.leaveBlock
  return (outer, r)

/-- One round inside the open blocks: the blocks that are open after it, or none if the document is
complete, and the recorder after it. -/
def round (blocks : List BlockMark) (r : Recorder) :
    Except Misuse (Option (List BlockMark) × Recorder) := do
  match r.current, blocks with
  | (none, r), [] => return (none, ← r.complete root .document none)
  | (none, r), b :: outer => return (← r.endBlock number probes b outer).map some id
  | (some _, r), [] => return (← r.advance number probes source oldTree room []).map some id
  | (some kind, r), b :: outer =>
    if kind = .rightBrace then return (← r.endBlock number probes b outer).map some id
    else return (← r.advance number probes source oldTree room (b :: outer)).map some id

/-- Demands that no marker is open. -/
def settle (r : Recorder) : Except Misuse Recorder :=
  match r.opened with
  | [] => .ok r
  | marker :: _ => .error (.leftOpen marker)

/-- What is handed out of a parse that is halted. -/
def suspension (r : Recorder) : Suspension :=
  ⟨r.events.take r.bookmark.events, r.bookmark.byte, r.bookmark.lastStop, r.bookmark.blocks⟩

/-- Leaves the blocks that are open, innermost first, and the document to a later call. -/
def halt (blocks : List BlockMark) (r : Recorder) :
    Except Misuse (Outcome Suspension × Recorder) := do
  let r ← blocks.foldlM (fun r b => r.leaveBlock.suspend b.starts) r
  let r ← (← r.suspend [root]).settle
  return (.halted r.suspension, r)

/-- Makes the tree of a complete document. -/
def finish (generation : Nat) (r : Recorder) : Except Misuse (Outcome Suspension × Recorder) := do
  let r ← r.settle
  return (.complete (← Event.treeOf source generation r.events), r)

/-- Rounds until the document is complete or the recorder halted, at most `steps` of them. -/
def run (generation : Nat) : Nat → List BlockMark → Recorder →
    Except Misuse (Outcome Suspension × Recorder)
  | steps, blocks, r =>
    if r.isHalted then r.halt blocks
    else
      match steps with
      | 0 => .ok (.stalled, r)
      | steps + 1 =>
        let r := r.save probes source
        if r.isHalted then r.halt blocks
        else do
          match ← r.round number probes source oldTree room blocks with
          | (none, r) => r.finish source generation
          | (some blocks, r) => run generation steps blocks r

end Recorder

/-- A call of the parser of C that notes events under some numbering, on the same terms as `engine`:
how it ends, and the recorder then. -/
def record (number : Nat → Nat) (generation : Nat) (probes : Nat → Probe) (task : Task Suspension)
    (interrupt : Interrupt) : Except Misuse (Outcome Suspension × Recorder) :=
  let r := Recorder.ofProgress task.source interrupt task.progress
  let size := task.source.chars.length
  r.run number probes task.source task.oldTree (size + 1) generation
    (4 * size + r.blocks.length + 4 + task.patience) r.blocks

/-- How many events a call notes if each of them has a number of its own. -/
def eventCount (generation : Nat) (probes : Nat → Probe) (task : Task Suspension) (interrupt : Interrupt) :
    Nat :=
  match record id generation probes task interrupt with
  | .ok (_, r) => r.events.length
  | .error _ => 0

/-- The engine of C that notes events under some numbering; a call that misuses its recorder fails. -/
def noting (number : Nat → Nat) : Engine Suspension := fun generation probes task interrupt =>
  match record number generation probes task interrupt with
  | .ok (outcome, r) => (outcome, r.interrupt)
  | .error _ => (.failed .noCalls, interrupt)

/-- The language C, parsed by noting events under numbers of 32 bits. -/
def notedLanguage : Language Suspension := ⟨grammar, noting Span.countOf⟩

/-! ## Series of calls -/

/-- What a call for a document may be given besides the document and the progress of the call before
it: the old tree, how long it is waited for, the generation of its nodes, its timeout and what its
checks of the interrupt find. -/
structure Turn where
  oldTree : Option Tree
  patience : Nat
  generation : Nat
  timeout : Nat
  probes : Nat → Probe

namespace Turn

/-- The task of a call that goes on from some progress. -/
def task {σ : Type} (turn : Turn) (source : Source) (progress : Option σ) : Task σ :=
  ⟨source, turn.oldTree, progress, turn.patience⟩

/-- A call that notes events under some numbering. -/
def recordBy (number : Nat → Nat) (turn : Turn) (source : Source) (progress : Option Suspension) :
    Except Misuse (Outcome Suspension × Recorder) :=
  C.record number turn.generation turn.probes (turn.task source progress) (.start turn.timeout)

/-- A call of the engine. -/
def run (turn : Turn) (source : Source) (progress : Option Checkpoint) : Outcome Checkpoint :=
  (engine turn.generation turn.probes (turn.task source progress) (.start turn.timeout)).1

/-- What calls that note events under some numbering have left to go on from, the latest of them given
first. -/
def recordedBy (number : Nat → Nat) (source : Source) : List Turn → Except Misuse (Option Suspension)
  | [] => .ok none
  | turn :: earlier => do
    let (outcome, _) ← turn.recordBy number source (← recordedBy number source earlier)
    return outcome.progress?

/-- A call that notes events, each of which has a number of its own. -/
def record (turn : Turn) (source : Source) (progress : Option Suspension) :
    Except Misuse (Outcome Suspension × Recorder) := turn.recordBy id source progress

/-- What calls that note events, each with a number of its own, have left to go on from, the latest of
them given first. -/
def recorded (source : Source) (turns : List Turn) : Except Misuse (Option Suspension) :=
  recordedBy id source turns

/-- What calls of the engine have left to go on from, the latest of them given first. -/
def reached (source : Source) : List Turn → Option Checkpoint
  | [] => none
  | turn :: earlier => (turn.run source (reached source earlier)).progress?

/-- How many events a call notes that goes on from what earlier calls have left, if each of the events has
a number of its own. -/
def eventCount (source : Source) (earlier : List Turn) (turn : Turn) : Nat :=
  match recorded source earlier with
  | .ok x => C.eventCount turn.generation turn.probes (turn.task source x) (.start turn.timeout)
  | .error _ => 0

/-- Whether no call of a series, the latest of them given first, notes as many events as there are numbers
of 32 bits. -/
def Fits (source : Source) : List Turn → Prop
  | [] => True
  | turn :: earlier => turn.eventCount source earlier ≤ limit ∧ Fits source earlier

end Turn

end Reparse.C
