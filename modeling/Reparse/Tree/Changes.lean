import Reparse.Node.Basic

/-!
# Changed spans

Where two trees of one document differ. The trees are compared from the root down. Of two nodes
with the same symbol, the children that agree at the front and at the back are paired and
compared in turn, and what lies between is reported as one span. Storage that both trees share
at the same place is not looked into.
-/

namespace Reparse

namespace Changes

/-- Whether two nodes agree in all but what is below them. -/
def sameShape (a b : Node) : Bool :=
  a.symbol == b.symbol && a.start == b.start && a.stop == b.stop &&
    a.isMissing == b.isMissing && a.isExtra == b.isExtra

/-- The span that covers two stretches. -/
def cover (a b : Span) : Span :=
  ⟨if b.start.bytes < a.start.bytes then b.start else a.start,
    if a.stop.bytes < b.stop.bytes then b.stop else a.stop⟩

/-- The number of pairs at the front of two lists that agree. -/
def agreeing : List Node → List Node → Nat
  | a :: as, b :: bs => if sameShape a b then agreeing as bs + 1 else 0
  | _, _ => 0

/-- The children of one of two nodes, split by where the two agree. -/
structure Split where
  parent : Node
  front : List Node
  middle : List Node
  back : List Node

namespace Split

/-- Splits children into the first `front`, the last `back`, and what is between. -/
def of (parent : Node) (children : List Node) (front back : Nat) : Split :=
  ⟨parent, children.take front, (children.drop front).take (children.length - back - front),
    children.drop (children.length - back)⟩

/-- The stretch of the middle; an empty middle lies at the end of the front. -/
def middleSpan (s : Split) : Span :=
  match s.middle.head?, s.middle.getLast? with
  | some first, some last => ⟨first.start, last.stop⟩
  | _, _ =>
    let place := (s.front.getLast?.map (·.stop)).getD s.parent.start
    ⟨place, place⟩

/-- The stretch from the last node of the front to the first node of the back, or to the ends of
the parent. -/
def aroundSpan (s : Split) : Span :=
  ⟨(s.front.getLast?.map (·.start)).getD s.parent.start,
    (s.back.head?.map (·.stop)).getD s.parent.stop⟩

end Split

/-- What is reported for the middles of two nodes: the stretch of both, or, where both are
without extent and one holds a node, what lies around them. -/
def middleChange (old new : Split) : List Span :=
  let o := old.middleSpan
  let n := new.middleSpan
  if o.start ≠ o.stop ∨ n.start ≠ n.stop then [cover o n]
  else if old.middle.isEmpty && new.middle.isEmpty then []
  else [cover old.aroundSpan new.aroundSpan]

/-- The spans in which two nodes differ, looking at most `levels` levels down. -/
def between : Nat → Node → Node → List Span
  | 0, _, _ => []
  | levels + 1, old, new =>
    if old.sameStorage new && old.start == new.start then []
    else if old.symbol != new.symbol || old.isMissing != new.isMissing ||
        old.isExtra != new.isExtra then
      [cover old.span new.span]
    else
      let olds := old.children
      let news := new.children
      if olds.isEmpty && news.isEmpty then
        if sameShape old new then [] else [cover old.span new.span]
      else
        let front := agreeing olds news
        let back := agreeing (olds.drop front).reverse (news.drop front).reverse
        let o := Split.of old olds front back
        let n := Split.of new news front back
        let below := fun a b => (List.zipWith (between levels) a b).flatten
        below o.front n.front ++ middleChange o n ++ below o.back n.back

/-- The members of one list that are not in another. -/
def onlyIn (a b : List Span) : List Span := a.filter fun s => !b.contains s

/-- Whether a span stands before another in a list of changes. -/
def standsBefore (a b : Span) : Bool :=
  a.start.bytes < b.start.bytes || (a.start.bytes == b.start.bytes && a.stop.bytes ≤ b.stop.bytes)

/-- Joins ordered spans that touch or overlap; `current` is the span being extended. -/
def joinFrom (current : Span) : List Span → List Span
  | [] => [current]
  | s :: rest =>
    if s.start.bytes ≤ current.stop.bytes then
      joinFrom ⟨current.start, if current.stop.bytes < s.stop.bytes then s.stop else current.stop⟩
        rest
    else current :: joinFrom s rest

/-- Orders spans and joins those that touch or overlap. -/
def merge (spans : List Span) : List Span :=
  match spans.mergeSort standsBefore with
  | [] => []
  | s :: rest => joinFrom s rest

end Changes

/-- The spans in which `old`, edited to match the new text, and `new` differ, ordered and with
gaps between them. -/
def Tree.changedSpans (old new : Tree) : List Span :=
  Changes.merge <|
    Changes.between (max old.root.depth new.root.depth) old.rootNode new.rootNode ++
      Changes.onlyIn old.includedRanges new.includedRanges ++
      Changes.onlyIn new.includedRanges old.includedRanges

end Reparse
