import Reparse.C.Item

/-!
# Events

A parse notes what it reads as events, in the order of the document: where nodes begin and end, and
what stands in them. That a node has begun may turn out late: the start of an inner node then tells
how far behind it the start of the outer one stands, and so on outwards. `toCalls` brings the starts
of such a chain into order, and `treeOf` hands the events to a builder.
-/

namespace Reparse.C

/-- What must not happen in a parse. -/
inductive Misuse where
  /-- A marker is completed, abandoned or suspended and is not open. -/
  | notOpen (marker : Nat)
  /-- A call ends while a marker is open. -/
  | leftOpen (marker : Nat)
  /-- There is no start at a marker that is completed. -/
  | noStart (marker : Nat)
  /-- An event is shifted to which something refers. -/
  | shifted (event : Nat)
  /-- The start of an outer node is noted under a lesser number than that of the inner one. -/
  | overtaken (marker : Nat)
  /-- A start tells of an outer start where there is none. -/
  | brokenChain
  /-- Nodes begin and end out of turn. -/
  | unbalanced (fault : Fault)
  /-- A document does not become one node. -/
  | rootless
deriving DecidableEq, Repr

/-- A part of what a parse has noted. -/
inductive Event where
  /-- A node begins, whose rule is known once it is completed; its outer node, if the start of that
  is noted later, begins that many events further on. -/
  | start (rule : Option Rule) (field : Option Field) (outer : Option Nat)
  | token (field : Option Field) (t : Token) (isExtra : Bool)
  | missing (field : Option Field) (kind : Terminal)
  | reused (subtree : Green)
  /-- The innermost node ends. -/
  | finish

/-- What a builder is told to do. -/
inductive Call where
  | startNode (rule : Rule) (field : Option Field)
  | leaf (field : Option Field) (t : Token) (isExtra : Bool)
  | missing (field : Option Field) (kind : Terminal)
  | reuse (subtree : Green)
  | finishNode

/-- A builder after one call. -/
def Call.perform (s : Source) (b : Builder) : Call → Except Fault Builder
  | startNode rule field => .ok (b.startNode rule.symbol (field.map Field.id))
  | leaf field t isExtra => .ok (b.leaf { Item.leafOf s field t with isExtra := isExtra })
  | missing field kind => .ok (b.missing kind.symbol (field.map Field.id))
  | reuse subtree => .ok (b.reuse subtree none)
  | finishNode => b.finishNode

/-- A builder after several calls. -/
def Call.performAll (s : Source) (b : Builder) (calls : List Call) : Except Fault Builder :=
  calls.foldlM (Call.perform s) b

namespace Event

/-- A start that begins no node. -/
def tombstone : Event := start none none none

/-- Whether an event is a start. -/
def isStart : Event → Bool
  | start .. => true
  | _ => false

/-- The event as the start of a completed node; a field that it has stays unless another is given. -/
def completed (rule : Rule) (field : Option Field) : Event → Event
  | start _ field' outer => start (some rule) (field.or field') outer
  | e => e

/-- The event as the start of a node whose outer node begins `distance` events further on. -/
def within (distance : Nat) : Event → Event
  | start rule field _ => start rule field (some distance)
  | e => e

/-- The event under a field. -/
def under (field : Field) : Event → Event
  | start rule _ outer => start rule (some field) outer
  | token _ t isExtra => token (some field) t isExtra
  | missing _ kind => missing (some field) kind
  | e => e

/-- The nodes that begin together with one whose outer start stands `distance` events from it, from
the inside out, and the events after it, in which their starts are spent. -/
def outers : (distance : Option Nat) → List Event →
    Except Misuse (List (Rule × Option Field) × List Event)
  | none, rest => .ok ([], rest)
  | some 0, rest => .ok ([], rest)
  | some 1, start rule field outer :: rest => do
    let (found, rest) ← outers outer rest
    return ((rule.map (·, field)).toList ++ found, tombstone :: rest)
  | some (distance + 2), e :: rest => do
    let (found, rest) ← outers (some (distance + 1)) rest
    return (found, e :: rest)
  | _, _ => .error .brokenChain

/-- Spent starts stay where they are. -/
theorem length_outers {distance : Option Nat} {events : List Event}
    {found : List (Rule × Option Field)} {rest : List Event}
    (h : outers distance events = .ok (found, rest)) : rest.length = events.length := by
  induction distance, events using outers.induct generalizing found rest with
  | case1 rest' =>
    rw [outers] at h
    cases h
    rfl
  | case2 rest' =>
    rw [outers] at h
    cases h
    rfl
  | case3 rule field outer events ih =>
    rw [outers] at h
    cases ho : outers outer events with
    | error misuse => rw [ho] at h; cases h
    | ok r =>
      rw [ho] at h
      cases h
      exact congrArg (· + 1) (ih ho)
  | case4 distance e events ih =>
    rw [outers] at h
    cases ho : outers (some (distance + 1)) events with
    | error misuse => rw [ho] at h; cases h
    | ok r =>
      rw [ho] at h
      cases h
      exact congrArg (· + 1) (ih ho)
  | case5 distance events h₁ h₂ h₃ h₄ =>
    rw [outers] at h
    · cases h
    all_goals assumption

/-- The calls that the events stand for. -/
def toCalls : List Event → Except Misuse (List Call)
  | [] => .ok []
  | start none _ _ :: rest => toCalls rest
  | start (some rule) field outer :: rest =>
    match h : outers outer rest with
    | .error misuse => .error misuse
    | .ok (found, rest') => do
      let more ← toCalls rest'
      return ((rule, field) :: found).reverse.map (fun n => .startNode n.1 n.2) ++ more
  | token field t isExtra :: rest => do return .leaf field t isExtra :: (← toCalls rest)
  | missing field kind :: rest => do return .missing field kind :: (← toCalls rest)
  | reused subtree :: rest => do return .reuse subtree :: (← toCalls rest)
  | finish :: rest => do return .finishNode :: (← toCalls rest)
termination_by events => events.length
decreasing_by
  all_goals simp_wf
  all_goals first | omega | (have hlength := length_outers h; omega)

/-- The tree of a document of which the events are noted. -/
def treeOf (s : Source) (generation : Nat) (events : List Event) : Except Misuse Tree := do
  let calls ← toCalls events
  let b ← (Call.performAll s (.new grammar generation) calls).mapError .unbalanced
  let tree ← (b.finish (s.positionAt s.endOfInput) s.ranges).mapError .unbalanced
  if b.children.length = 1 then return tree else .error .rootless

end Event

end Reparse.C
