import Reparse.C.Statement
import Reparse.Parser.Engine
import Reparse.Tree.Reuse

/-!
# The parser of C

A document is parsed in steps. Before every step stands a checkpoint, from which a later call can
go on: what was read so far and which blocks are open. A step closes a block, takes a node over
from the old tree, or reads one statement, of which a block is only opened.

The interrupt is checked at every checkpoint and for every token that a step takes, comments
apart. If it fires, the step leaves no trace and the call ends with the checkpoint before it. A
call that goes on from a checkpoint makes at least one step before it can be halted again.

Every step leads on, except that a void node without padding is taken over where the call stands,
and is then taken over again until the interrupt fires.
-/

namespace Reparse.C

/-- A block that is being read: the parts of the function definition whose body it is, if it is
one, and the parts of the node around it, newest first. -/
structure Block where
  definition : Option (List Item)
  outer : List Item

/-- A document that is partly read: the parts of the innermost open block, newest first, the
blocks that are open, innermost first, and the end of what was read. -/
structure Draft where
  parts : List Item
  blocks : List Block
  lastStop : Nat

/-- A draft together with the byte to go on from. -/
structure Checkpoint where
  draft : Draft
  byte : Nat

/-- A draft together with the tokens still to be read. -/
structure State where
  draft : Draft
  tokens : List Token

namespace Draft

/-- The draft of a document of which nothing is read. -/
def empty : Draft := ⟨[], [], 0⟩

/-- The tokens of the parts of some open blocks, outermost first, up to where the innermost of them
begins. -/
def tokensBefore : List Block → List Token
  | [] => []
  | b :: outer =>
    tokensBefore outer ++ Item.tokensOf b.outer.reverse ++ Item.tokensOf (b.definition.getD [])

/-- The tokens of a draft, in order. -/
def tokens (d : Draft) : List Token := tokensBefore d.blocks ++ Item.tokensOf d.parts.reverse

/-- The draft after some items of the innermost block, in order. -/
def add (d : Draft) (items : List Item) : Draft := { d with parts := items.reverse ++ d.parts }

/-- The draft after some tokens were taken. -/
def after (d : Draft) (taken : List Token) : Draft :=
  { d with lastStop := (taken.getLast?.map (·.stop)).getD d.lastStop }

/-- The draft after a piece of a document. -/
def place (d : Draft) : Piece → Draft
  | .whole item => d.add [item]
  | .opened definition brace =>
    { d with parts := [.token none brace], blocks := ⟨definition, d.parts⟩ :: d.blocks }

/-- The block `b` as a part of the node around it, from its parts in order. -/
def closedBlock (b : Block) (parts : List Item) : Item :=
  match b.definition with
  | none => .node none .compoundStatement parts
  | some head =>
    .node none .functionDefinition (head ++ [Item.node (some .body) .compoundStatement parts])

end Draft

/-- The tokens that were taken where `before` became `rest`. -/
def taken (before rest : List Token) : List Token := before.take (before.length - rest.length)

/-- The number of times the interrupt is checked while some tokens are taken. -/
def checksFor (taken : List Token) : Nat := taken.countP fun t => !t.isComment

/-- The rules whose nodes may be taken over inside blocks. -/
def reusableInBlock : List Rule :=
  [.declaration, .expressionStatement, .returnStatement, .compoundStatement]

/-- The rules whose nodes may be taken over at the top of a document. -/
def reusableAtTop : List Rule := .functionDefinition :: reusableInBlock

namespace State

/-- Where a later call goes on: at the next token, comments included. -/
def byte (source : Source) (s : State) : Nat :=
  (s.tokens.head?.map (·.start)).getD source.endOfInput

/-- The state as a checkpoint. -/
def checkpoint (source : Source) (s : State) : Checkpoint := ⟨s.draft, s.byte source⟩

/-- The state in which a call starts, from a checkpoint or from the start of the document. -/
def start (source : Source) : Option Checkpoint → State
  | some c => ⟨c.draft, tokensFrom source c.byte⟩
  | none => ⟨.empty, tokensFrom source 0⟩

/-- The node of the old tree that can be taken over where the token `t` comes next. -/
def reusable? (source : Source) (oldTree : Option Tree) (d : Draft) (t : Token) : Option Node :=
  let rules := if d.blocks.isEmpty then reusableAtTop else reusableInBlock
  oldTree.bind fun tree => (tree.candidatesAt d.lastStop).find? fun n =>
    n.startByte == t.start && n.stopByte ≤ source.endOfInput && rules.any (·.symbol == n.symbol)

end State

/-- What a step comes to: all parts of the document, in order, or a new state and the number of
checks of the interrupt on the way to it. -/
inductive Step where
  | finished (parts : List Item)
  | next (checks : Nat) (s : State)

/-- Closes the block `b`, whose closing brace is missing if it does not come next. -/
def close (d : Draft) (b : Block) (outer : List Block) (ts : List Token) : Step :=
  let (brace, rest) := expect .rightBrace none ts
  let item := Draft.closedBlock b (d.parts.reverse ++ brace)
  let closed : Draft := ⟨item :: b.outer, outer, d.lastStop⟩
  .next (checksFor (taken ts rest)) ⟨closed.after (taken ts rest), rest⟩

/-- Takes over the node of the old tree that starts with the token `t`, or reads the statement
that does. -/
def advance (source : Source) (oldTree : Option Tree) (d : Draft) (t : Token) (ts : List Token) :
    Step :=
  match State.reusable? source oldTree d t with
  | some n =>
    .next 1 ⟨{ d.add [.reused n.green] with lastStop := n.stopByte }, tokensFrom source n.stopByte⟩
  | none =>
    let (piece, rest) := if d.blocks.isEmpty then topLevel t ts else statement t ts
    let read := taken (t :: ts) rest
    .next (checksFor read) ⟨(d.place piece).after read, rest⟩

/-- One step from a checkpoint. -/
def step (source : Source) (oldTree : Option Tree) (s : State) : Step :=
  let (before, ts) := comments s.tokens
  let d := (s.draft.add before).after (taken s.tokens ts)
  match ts, d.blocks with
  | [], [] => .finished d.parts.reverse
  | [], b :: outer => close d b outer []
  | t :: rest, [] => advance source oldTree d t rest
  | t :: rest, b :: outer =>
    if t.kind = .rightBrace then close d b outer (t :: rest) else advance source oldTree d t rest

/-- The outcome of a document whose parts are all read. -/
def finish (source : Source) (generation : Nat) (parts : List Item) : Outcome Checkpoint :=
  match Item.treeOf source generation parts with
  | .ok tree => .complete tree
  | .error fault => .failed fault

/-- Steps until the document is read or the interrupt fires, at most `steps` of them. The call
can be halted once it `mayHalt`. -/
def run (generation : Nat) (probes : Nat → Probe) (source : Source) (oldTree : Option Tree) :
    Nat → Bool → State → Interrupt → Outcome Checkpoint × Interrupt
  | 0, _, _, i => (.stalled, i)
  | steps + 1, mayHalt, s, i =>
    let i := i.poll probes
    if mayHalt && i.isHalted then (.halted (s.checkpoint source), i)
    else
      match step source oldTree s with
      | .finished parts => (finish source generation parts, i)
      | .next checks s' =>
        let i := i.pollTimes probes checks
        if mayHalt && i.isHalted then (.halted (s.checkpoint source), i)
        else run generation probes source oldTree steps true s' i

/-- A number of steps that a call goes beyond only where it takes a void node over again: every
other step takes a character, closes a block, or takes over a node that brings the next character
within reach. -/
def stepBound (source : Source) (s : State) : Nat :=
  4 * source.chars.length + s.draft.blocks.length + 4

/-- The engine of C. -/
def engine : Engine Checkpoint := fun generation probes task interrupt =>
  let s := State.start task.source task.progress
  run generation probes task.source task.oldTree (stepBound task.source s + task.patience)
    task.progress.isNone s interrupt

/-- The language C. -/
def language : Language Checkpoint := ⟨grammar, engine⟩

end Reparse.C
