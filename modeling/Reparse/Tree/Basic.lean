import Reparse.Tree.Edit

/-!
# Trees

A tree is a green root together with the grammar of its symbols and the spans of the document
that it was parsed from.
-/

namespace Reparse

/-- The result of a parse. -/
structure Tree where
  root : Green
  grammar : Grammar
  includedRanges : List Span

namespace Tree

/-- Adjusts a tree to an edit of its text. The nodes that the edit touches are made anew and
marked, and the included ranges move along. -/
def edit (generation : Nat) (e : Edit) (t : Tree) : Tree :=
  { t with
    root := t.root.edit generation [] e
    includedRanges := t.includedRanges.map (Span.shift e) }

end Tree

end Reparse
