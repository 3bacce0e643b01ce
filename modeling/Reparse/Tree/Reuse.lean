import Reparse.Node.Basic

/-!
# Reusable nodes

What a parse may take over from an edited tree: nodes without change and without error, found by
the byte at which their padding starts.
-/

namespace Reparse

/-- The number of bytes of a subtree, its padding included. -/
def Green.totalBytes (g : Green) : Nat := g.total.bytes

/-- The written form of a subtree, as in `Subtree \x7b symbol: Symbol(1), total_bytes: 4 \x7d`. -/
def Green.displaySubtree (g : Green) : String :=
  "Subtree \x7b symbol: " ++ g.label.symbol.display ++ ", total_bytes: " ++ toString g.totalBytes ++
    " \x7d"

namespace Reuse

/-- Whether a node may be taken over as it is. -/
def isIntact (n : Node) : Bool := !n.hasChanges && !n.hasError

/-- The intact nodes among `n`, its first child, the first child of that, and so on, as long as
their padding starts at `byte`; outermost first, at most `levels` of them. -/
def chain (byte : Nat) : Nat → Node → List Node
  | 0, _ => []
  | levels + 1, n =>
    if n.totalStart = byte then
      (if isIntact n then [n] else []) ++ ((n.child? 0).map (chain byte levels)).getD []
    else []

/-- What the search for `byte` does at one child. -/
inductive Step where
  /-- The child starts at the byte and goes beyond it. -/
  | found
  /-- The byte lies inside the child. -/
  | enter
  /-- The child and all after it start later. -/
  | stop
  | pass
deriving DecidableEq, Repr

/-- What the search for `byte` does at the child `c`. -/
def stepAt (byte : Nat) (c : Node) : Step :=
  if c.totalStart = byte ∧ byte < c.stopByte then .found
  else if c.totalStart < byte ∧ byte < c.stopByte then .enter
  else if byte < c.totalStart then .stop
  else .pass

/-- Searches the nodes below `n`, at most `levels` levels down. -/
def candidatesBelow (byte : Nat) : Nat → Node → List Node
  | 0, _ => []
  | levels + 1, n =>
    match n.children.find? fun c => stepAt byte c != .pass with
    | none => []
    | some c =>
      match stepAt byte c with
      | .found => chain byte levels c
      | .enter => candidatesBelow byte levels c
      | _ => []

end Reuse

/-- The intact nodes below the root whose padding starts at `byte`, outermost first. -/
def Tree.candidatesAt (t : Tree) (byte : Nat) : List Node :=
  Reuse.candidatesBelow byte t.root.depth t.rootNode

end Reparse
