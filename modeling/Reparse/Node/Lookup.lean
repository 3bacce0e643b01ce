import Reparse.Node.Basic

/-!
# Lookup by position

The smallest node that spans a stretch of the document. The search is the same for bytes and
for points: it goes down as long as some child spans the stretch. A child without extent counts
as reaching a stretch that starts exactly where it stands.
-/

namespace Reparse

namespace Node

/-- Whether a child from `start` to `stop` is passed over on the way to the stretch from `first`
to `last`: it ends too early. -/
def endsBefore {P : Type} [LT P] [LE P] [DecidableLT P] [DecidableLE P] [DecidableEq P]
    (first last start stop : P) : Bool :=
  stop < last || !(if start = stop then decide (first ≤ stop) else decide (first < stop))

/-- The child to go down to on the way to the stretch from `first` to `last`: the first one that
does not end too early, unless it starts too late. -/
def spanningChild? {P : Type} [LT P] [LE P] [DecidableLT P] [DecidableLE P] [DecidableEq P]
    (position : Length → P) (first last : P) (n : Node) : Option Node :=
  (n.children.find? fun c => !endsBefore first last (position c.start) (position c.stop)).filter
    fun c => position c.start ≤ first

/-- Goes down at most `levels` levels and gives the last node met that satisfies `wanted`, or
`best` if there is none. -/
def lastSpanning {P : Type} [LT P] [LE P] [DecidableLT P] [DecidableLE P] [DecidableEq P]
    (position : Length → P) (wanted : Node → Bool) (first last : P) :
    Nat → Node → Node → Node
  | 0, best, _ => best
  | levels + 1, best, n =>
    match spanningChild? position first last n with
    | none => best
    | some c => lastSpanning position wanted first last levels (if wanted c then c else best) c

/-- The smallest node at or below `n` that satisfies `wanted` and spans `first` to `last`; `n`
itself needs to satisfy nothing, and an inverted stretch has no such node. -/
def smallestSpanning? {P : Type} [LT P] [LE P] [DecidableLT P] [DecidableLE P] [DecidableEq P]
    (position : Length → P) (wanted : Node → Bool) (n : Node) (first last : P) : Option Node :=
  if last < first then none
  else some (lastSpanning position wanted first last n.green.depth n n)

variable (n : Node)

/-- The smallest node that spans the bytes from `first` to `last`. -/
def descendantForBytes? (first last : Nat) : Option Node :=
  n.smallestSpanning? (·.bytes) (fun _ => true) first last

/-- The smallest named node that spans the bytes from `first` to `last`. -/
def namedDescendantForBytes? (first last : Nat) : Option Node :=
  n.smallestSpanning? (·.bytes) (·.isNamed) first last

/-- The smallest node that spans the points from `first` to `last`. -/
def descendantForPoints? (first last : Point) : Option Node :=
  n.smallestSpanning? (·.extent) (fun _ => true) first last

/-- The smallest named node that spans the points from `first` to `last`. -/
def namedDescendantForPoints? (first last : Point) : Option Node :=
  n.smallestSpanning? (·.extent) (·.isNamed) first last

/-- The first child that ends after `byte`. -/
def firstChildForByte? (byte : Nat) : Option Node :=
  n.children.find? fun c => byte < c.stopByte

/-- The first named child that ends after `byte`. -/
def firstNamedChildForByte? (byte : Nat) : Option Node :=
  n.children.find? fun c => c.isNamed && byte < c.stopByte

end Node

end Reparse
