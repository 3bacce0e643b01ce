import Reparse.Parser.Basic

/-!
# Assignments

The settings of a parser as assignments to its fields, in the order in which they are made. Where an
assignment fails, the parser stays as those before it have left it.
-/

namespace Reparse.Parser

variable {σ : Type}

/-- Assigns a language. -/
def assignLanguage (l : Language σ) : EStateM ParseError (Parser σ) Unit := do
  unless accepts l.version do
    throw (.versionMismatch l.version)
  unless (← get).language.any (·.grammar == l.grammar) do
    modify fun p => { p with suspended := none }
  modify fun p => { p with language := some l }

/-- Fails with the first range that is inverted or starts before `previous`, the end of the range before
it; `index` is the number of the first range given. -/
def checkRanges (previous index : Nat) : List Span → EStateM ParseError (Parser σ) Unit
  | [] => pure ()
  | r :: rest => do
    if r.start.bytes < previous ∨ r.stop.bytes < r.start.bytes then
      throw (.invalidRanges index)
    checkRanges r.stop.bytes (index + 1) rest

/-- Assigns the ranges to look at; none means the whole document. -/
def assignIncludedRanges (ranges : List Span) : EStateM ParseError (Parser σ) Unit := do
  checkRanges 0 0 ranges
  modify fun p => { p with includedRanges := if ranges.isEmpty then [.document] else ranges }

/-- Assigns all settings. -/
def assignOptions (l : Language σ) (timeout : Nat) (ranges : List Span) (flag : Option Nat) :
    EStateM ParseError (Parser σ) Unit := do
  assignLanguage l
  assignIncludedRanges ranges
  modify fun p => { p with timeout := timeout }
  modify fun p => { p with flag := flag }

/-- The parser after some assignments to the fields of a new one, if none of them fails. -/
def assigned (assign : EStateM ParseError (Parser σ) Unit) : Except ParseError (Parser σ) :=
  match assign.run new with
  | .ok () p => .ok p
  | .error e _ => .error e

end Reparse.Parser
