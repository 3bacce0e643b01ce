import Reparse.C.Stream

/-!
# Watched calls

A call that notes events, with its acts in their order: when it checks its interrupt, and which tokens it
takes from those to come. A node that is taken over is not taken token by token. But for the acts each
definition does what its namesake for recorders does.
-/

namespace Reparse.C

/-- What a watched call does. -/
inductive Act where
  | checked
  | took (t : Token)
deriving DecidableEq, Repr

/-- A recorder and what was done so far. -/
structure Watched where
  recorder : Recorder
  acts : List Act

namespace Watched

variable {α : Type} (number : Nat → Nat) (probes : Nat → Probe) (source : Source)
  (oldTree : Option Tree) (room : Nat)

/-- Something that is no act. -/
def update (f : Recorder → Recorder) (w : Watched) : Watched := { w with recorder := f w.recorder }

/-- Something that is no act, gives an answer and can fail. -/
def attempt (f : Recorder → Except Misuse (α × Recorder)) (w : Watched) : Except Misuse (α × Watched) :=
  (f w.recorder).map fun (a, r) => (a, ⟨r, w.acts⟩)

/-- Checks the interrupt. -/
def poll (w : Watched) : Watched := ⟨w.recorder.poll probes, w.acts ++ [Act.checked]⟩

/-- Takes the token `t`, after which `rest` is still to come. -/
def take (t : Token) (rest : List Token) (w : Watched) : Watched :=
  ⟨{ w.recorder with tokens := rest }, w.acts ++ [Act.took t]⟩

/-- Takes the comments with which the tokens to come begin. -/
def takeCommentsOf : List Token → Watched → Watched
  | [], w => w
  | t :: rest, w =>
    if t.isComment then takeCommentsOf rest ((w.take t rest).update (·.pushToken none t true)) else w

/-- Takes the comments that come next. -/
def takeComments (w : Watched) : Watched := takeCommentsOf w.recorder.tokens w

/-- The kind of the next token that is no comment; the comments before it are taken. -/
def current (w : Watched) : Option Terminal × Watched :=
  if w.recorder.isHalted then (none, w)
  else (w.takeComments.recorder.tokens.head?.map (·.kind), w.takeComments)

/-- Takes the next token that is no comment, if there is one, and gives the number of its event. -/
def bump (field : Option Field) (w : Watched) : Nat × Watched :=
  match w.current with
  | (none, w) => (number w.recorder.events.length, w)
  | (some _, w) =>
    match w.recorder.tokens with
    | [] => (number w.recorder.events.length, w)
    | t :: rest =>
      (number w.recorder.events.length, ((w.take t rest).poll probes).update (·.pushToken field t false))

/-- Opens a marker where the next token stands; the comments before it are taken. -/
def start (w : Watched) : Nat × Watched :=
  let w := if w.recorder.isHalted then w else w.takeComments
  (number w.recorder.events.length, w.update fun r => (r.pushStart number).2)

/-- Sets the bookmark and checks the interrupt, unless the recorder is halted. -/
def save (w : Watched) : Watched :=
  if w.recorder.isHalted then w
  else
    (w.update fun r =>
      let byte := (r.tokens.head?.map (·.start)).getD source.endOfInput
      { r with bookmark := ⟨r.events.length, byte, r.lastStop, r.blocks⟩ }).poll probes

/-- What a request is answered with. -/
def perform (w : Watched) : (q : Request) → Except Misuse (q.Answer × Watched)
  | .current => .ok w.current
  | .bump field => .ok (w.bump number probes field)
  | .start => .ok (w.start number)
  | q => w.attempt fun r => q.perform number probes r

/-- What a script ends with. -/
def exec : Script α → Watched → Except Misuse (α × Watched)
  | .done a, w => .ok (a, w)
  | .ask q more, w => (w.perform number probes q).bind fun (a, w) => exec (more a) w

/-- What is left after a node of the old tree was taken over, if one starts with the next token. -/
def reuse? (allowed : List Rule) (w : Watched) : Option Watched :=
  match w.recorder.isHalted, w.recorder.tokens with
  | false, t :: _ =>
    (oldTree.bind fun tree => (tree.candidatesAt w.recorder.lastStop).find? fun n =>
      n.startByte == t.start && n.stopByte ≤ source.endOfInput &&
        allowed.any (·.symbol == n.symbol)).map fun n =>
      (w.update fun r =>
        { r.push (.reused n.green) with
          lastStop := n.stopByte
          tokens := tokensFrom source n.stopByte }).poll probes
  | _, _ => none

/-- Takes over or reads what comes next inside the open blocks; gives the blocks that are open
then. -/
def advance (blocks : List BlockMark) (w : Watched) : Except Misuse (List BlockMark × Watched) :=
  match w.reuse? probes source oldTree (if blocks.isEmpty then reusableAtTop else reusableInBlock) with
  | some w => .ok (blocks, w)
  | none => do
    let script := if blocks.isEmpty then Script.topLevel room else Script.statement room
    match ← w.exec number probes script with
    | (none, w) => return (blocks, w)
    | (some b, w) => return (b :: blocks, w.update (·.enterBlock b))

/-- Ends the innermost block. -/
def endBlock (b : BlockMark) (outer : List BlockMark) (w : Watched) :
    Except Misuse (List BlockMark × Watched) := do
  let ((), w) ← (w.update (·.leaveBlock)).exec number probes (Script.endOfBlock b)
  return (outer, w)

/-- One round inside the open blocks: the blocks that are open after it, or none if the document is
complete. -/
def round (blocks : List BlockMark) (w : Watched) :
    Except Misuse (Option (List BlockMark) × Watched) := do
  match w.current, blocks with
  | (none, w), [] => w.attempt fun r => do return (none, ← r.complete Recorder.root .document none)
  | (none, w), b :: outer => return (← w.endBlock number probes b outer).map some id
  | (some _, w), [] => return (← w.advance number probes source oldTree room []).map some id
  | (some kind, w), b :: outer =>
    if kind = .rightBrace then return (← w.endBlock number probes b outer).map some id
    else return (← w.advance number probes source oldTree room (b :: outer)).map some id

/-- Rounds until the document is complete or the recorder halted, at most `steps` of them. -/
def run (generation : Nat) : Nat → List BlockMark → Watched → Except Misuse (Outcome Suspension × Watched)
  | steps, blocks, w =>
    if w.recorder.isHalted then w.attempt (·.halt blocks)
    else
      match steps with
      | 0 => .ok (.stalled, w)
      | steps + 1 =>
        let w := w.save probes source
        if w.recorder.isHalted then w.attempt (·.halt blocks)
        else do
          match ← w.round number probes source oldTree room blocks with
          | (none, w) => w.attempt (·.finish source generation)
          | (some blocks, w) => run generation steps blocks w

end Watched

/-- A call that is watched. -/
def Turn.watch (turn : Turn) (source : Source) (progress : Option Suspension) :
    Except Misuse (Outcome Suspension × Watched) :=
  let r := Recorder.ofProgress source (.start turn.timeout) progress
  let size := source.chars.length
  Watched.run id turn.probes source turn.oldTree (size + 1) turn.generation
    (4 * size + r.blocks.length + 4 + turn.patience) r.blocks ⟨r, []⟩

end Reparse.C
