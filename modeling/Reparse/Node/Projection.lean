import Reparse.Node.Outline

/-!
# Projections

The visible structure of a node apart from any written form (`Node.projection`), and the written form as it
comes about: each visible node is written after what was written before, with a space between them
(`Node.write`). What is written can be read character by character (`Scan`), where parentheses open and
close and quoted text is passed over.
-/

namespace Reparse

/-- A named or a missing node: its kind, whether it is missing, the name of its field, and the visible
nodes below it. -/
inductive Figure where
  | node (kind : String) (isMissing : Bool) (field : Option String) (parts : List Figure)

namespace Grammar

/-- The name of a symbol, empty for a symbol that the grammar does not know. -/
def kindOf (g : Grammar) (s : Symbol) : String := (g.symbolName? s).getD ""

/-- The name of the field of a child, which is left out unless the child is `labelled`. -/
def labelOf (g : Grammar) (labelled : Bool) (field : Option FieldId) : Option String :=
  if labelled then field.bind g.fieldName? else none

end Grammar

namespace Green

mutual

/-- The visible nodes at and below a node that stands under a field: the node itself if it is named or
missing, and else those below it, without their fields. -/
def figures (grammar : Grammar) (field : Option String) : Green → List Figure
  | node l cs =>
    if l.isNamed || l.isMissing then
      [.node (grammar.kindOf l.symbol) l.isMissing field (figuresOf grammar true cs)]
    else figuresOf grammar false cs

/-- The visible nodes at and below some children. -/
def figuresOf (grammar : Grammar) (labelled : Bool) : List (Child Green) → List Figure
  | [] => []
  | c :: rest =>
    c.node.figures grammar (grammar.labelOf labelled c.field) ++ figuresOf grammar labelled rest

end

/-- Some text with a space after it, unless there is no text. -/
def separated (out : String) : String := if out.isEmpty then out else out ++ " "

/-- Some text with the name of a field after it, if there is one. -/
def writeField (field : Option String) (out : String) : String :=
  match field with
  | some name => out ++ name ++ ": "
  | none => out

mutual

/-- Some text with the visible nodes at and below a node that stands under a field written after it. -/
def write (grammar : Grammar) (field : Option String) (out : String) : Green → String
  | node l cs =>
    if l.isNamed || l.isMissing then
      let out := writeField field (separated out)
      if l.isMissing then
        if l.isNamed then out ++ "(MISSING " ++ grammar.kindOf l.symbol ++ ")"
        else out ++ "(MISSING \"" ++ Text.plainAscii (grammar.kindOf l.symbol) ++ "\")"
      else writeAll grammar true (out ++ "(" ++ grammar.kindOf l.symbol) cs ++ ")"
    else writeAll grammar false out cs

/-- Some text with the visible nodes at and below some children written after it. -/
def writeAll (grammar : Grammar) (labelled : Bool) (out : String) : List (Child Green) → String
  | [] => out
  | c :: rest =>
    writeAll grammar labelled (c.node.write grammar (grammar.labelOf labelled c.field) out) rest

end

end Green

namespace Node

/-- The visible nodes at and below a node. -/
def projection (n : Node) : List Figure := n.green.figures n.tree.grammar none

/-- What is written of a node. -/
def write (n : Node) : String := n.green.write n.tree.grammar none ""

end Node

/-! ## Reading -/

/-- How a character is read: as it stands, between quotes, or after a backslash between quotes. -/
inductive Mode where
  | plain
  | quoted
  | escaped
deriving DecidableEq, Repr

/-- How far text was read: the number of parentheses that are open outside quotes, and how the next
character is read. -/
structure Scan where
  depth : Nat
  mode : Mode
deriving DecidableEq, Repr

namespace Scan

/-- The scan after one more character; there is none if a parenthesis closes that was not opened. -/
def read (s : Scan) (c : Char) : Option Scan :=
  match s.mode with
  | .escaped => some { s with mode := .quoted }
  | .quoted =>
    if c = '"' then some { s with mode := .plain }
    else if c = '\\' then some { s with mode := .escaped }
    else some s
  | .plain =>
    if c = '"' then some { s with mode := .quoted }
    else if c = '(' then some { s with depth := s.depth + 1 }
    else if c = ')' then if s.depth = 0 then none else some { s with depth := s.depth - 1 }
    else some s

/-- The scan after some text. -/
def readAll (s : Scan) (text : List Char) : Option Scan := text.foldlM read s

end Scan

/-- Whether quotes and, outside them, parentheses are balanced: each is closed in turn, and none is closed
that was not opened. -/
def Balanced (text : String) : Prop := Scan.readAll ⟨0, .plain⟩ text.toList = some ⟨0, .plain⟩

instance (text : String) : Decidable (Balanced text) := inferInstanceAs (Decidable (_ = _))

end Reparse
