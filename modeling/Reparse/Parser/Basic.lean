import Reparse.Parser.Engine

/-!
# Parsers

A parser holds a language, the ranges of the document to look at, a timeout and a cancellation
flag, and, after a call that was halted, the progress of that call. The progress goes to the next
call if that is for the same language and the same input, and is dropped otherwise.
-/

namespace Reparse

/-- Why a parser refuses a setting or gives no tree. -/
inductive ParseError where
  | noLanguage
  | versionMismatch (version : Nat)
  | invalidRanges (index : Nat)
  | cancelled (reason : HaltReason)
deriving DecidableEq, Repr

/-- Why a call gives no tree: an error that the caller can act on, a fault of the engine, or a
call that was given up. -/
inductive Failure where
  | error (e : ParseError)
  | fault (f : Fault)
  | stalled
deriving DecidableEq, Repr

/-- The oldest grammar version that parsers accept. -/
def oldestVersion : Nat := 13

/-- The newest grammar version that parsers accept. -/
def newestVersion : Nat := 14

namespace ParseError

/-- The wording of an error. -/
def message : ParseError → String
  | noLanguage => "no language assigned to the parser"
  | versionMismatch version =>
    "incompatible language version " ++ toString version ++ ", expected " ++
      toString oldestVersion ++ "..=" ++ toString newestVersion
  | invalidRanges index => "included range " ++ toString index ++ " is out of order or inverted"
  | cancelled reason => "parse halted: " ++ reason.message

/-- Whether the call may be repeated in order to go on. -/
def isCancelled : ParseError → Bool
  | cancelled _ => true
  | _ => false

end ParseError

/-- What happens outside a parser during a call: the value of every cancellation flag and the
nanoseconds since the call began, as found at each check, and how many steps that lead nowhere are
waited for. -/
structure Outside where
  flag : Nat → Nat → Nat
  elapsed : Nat → Nat
  patience : Nat

/-- The progress of a halted call, and what the call was for. -/
structure Suspended (σ : Type) where
  grammar : Grammar
  document : Document
  ranges : List Span
  progress : σ

/-- The settings of a parser and the progress of a halted call. Timeouts are in nanoseconds, and
0 is none; a cancellation flag is known by its number. -/
structure Parser (σ : Type) where
  language : Option (Language σ)
  includedRanges : List Span
  timeout : Nat
  flag : Option Nat
  suspended : Option (Suspended σ)

namespace Parser

variable {σ : Type}

/-- A parser without a language. -/
def new : Parser σ := ⟨none, [.document], 0, none, none⟩

/-- Whether a grammar of this version can be used. -/
def accepts (version : Nat) : Bool := oldestVersion ≤ version && version ≤ newestVersion

/-- Assigns a language. Progress is kept where the grammar stays the same. -/
def setLanguage (p : Parser σ) (l : Language σ) : Except ParseError (Parser σ) :=
  if accepts l.version then
    let isSame := p.language.any fun old => old.grammar == l.grammar
    .ok { p with
      language := some l
      suspended := if isSame then p.suspended else none }
  else .error (.versionMismatch l.version)

/-- The number of the first range that is inverted or starts before `previous`, the end of the
range before it; `index` is the number of the first range given. -/
def firstInvalid? (previous index : Nat) : List Span → Option Nat
  | [] => none
  | r :: rest =>
    if r.start.bytes < previous ∨ r.stop.bytes < r.start.bytes then some index
    else firstInvalid? r.stop.bytes (index + 1) rest

/-- Restricts parsing to some ranges; none means the whole document. -/
def setIncludedRanges (p : Parser σ) (ranges : List Span) : Except ParseError (Parser σ) :=
  match firstInvalid? 0 0 ranges with
  | some index => .error (.invalidRanges index)
  | none => .ok { p with includedRanges := Source.effectiveRanges ranges }

/-- Sets the time that a call may take. -/
def setTimeout (p : Parser σ) (timeout : Nat) : Parser σ := { p with timeout := timeout }

/-- Sets the flag that cancels a call when it is not 0. -/
def setFlag (p : Parser σ) (flag : Option Nat) : Parser σ := { p with flag := flag }

/-- Forgets the progress of a halted call. -/
def reset (p : Parser σ) : Parser σ := { p with suspended := none }

/-- A parser with the given settings, if they are acceptable. -/
def withOptions (l : Language σ) (timeout : Nat) (ranges : List Span) (flag : Option Nat) :
    Except ParseError (Parser σ) := do
  let p ← new.setLanguage l
  let p ← p.setIncludedRanges ranges
  pure ((p.setTimeout timeout).setFlag flag)

/-- Whether an old tree may be used: it must be of the language's grammar and of the same
ranges. -/
def admits (p : Parser σ) (l : Language σ) (t : Tree) : Bool :=
  t.grammar == l.grammar && t.includedRanges == p.includedRanges

/-- Whether progress belongs to a call for `d`. -/
def continues (p : Parser σ) (l : Language σ) (d : Document) (s : Suspended σ) : Bool :=
  s.grammar == l.grammar && s.document == d && s.ranges == p.includedRanges

/-- What a call for `d` gives the engine. -/
def task (p : Parser σ) (outside : Outside) (l : Language σ) (d : Document)
    (oldTree : Option Tree) : Task σ where
  source := .ofDocument d p.includedRanges
  oldTree := oldTree.filter (p.admits l)
  progress := (p.suspended.filter (p.continues l d)).map (·.progress)
  patience := outside.patience

/-- What the interrupt of a call finds at each check. -/
def probes (p : Parser σ) (outside : Outside) (check : Nat) : Probe where
  flag := (p.flag.map fun f => outside.flag f check).getD 0
  elapsed := outside.elapsed check

/-- What a call for `d` gives when its engine is done, and the parser that it leaves. -/
def conclude (p : Parser σ) (l : Language σ) (d : Document) :
    Outcome σ × Interrupt → Except Failure Tree × Parser σ
  | (.complete tree, _) => (.ok tree, p.reset)
  | (.halted progress, interrupt) =>
    (.error (.error (.cancelled (interrupt.halted.getD .flag))),
      { p with suspended := some ⟨l.grammar, d, p.includedRanges, progress⟩ })
  | (.failed fault, _) => (.error (.fault fault), p.reset)
  | (.stalled, _) => (.error .stalled, p.reset)

/-- Parses a document. With an old tree, which must have been edited to match the document,
unchanged parts of it are shared with the new tree, whose other nodes belong to `generation`. A
call that is halted may be repeated. -/
def parse (p : Parser σ) (outside : Outside) (generation : Nat) (d : Document)
    (oldTree : Option Tree) : Except Failure Tree × Parser σ :=
  match p.language with
  | none => (.error (.error .noLanguage), p)
  | some l =>
    p.conclude l d
      (l.engine generation (p.probes outside) (p.task outside l d oldTree) (.start p.timeout))

end Parser

end Reparse
