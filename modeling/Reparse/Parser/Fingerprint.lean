import Reparse.Parser.Basic

/-!
# Fingerprints

What a parser remembers of the input of a halted call may be the whole input or only a fingerprint
of it, which is then taken for the input itself. `parseBy` is a call of a parser that goes by a
fingerprint; `parseBy_input` says that with the input as its own fingerprint it is `parse`.
-/

namespace Reparse.Parser

variable {σ κ : Type} [DecidableEq κ]

/-- Whether progress is taken to belong to a call for `d`. -/
def continuesBy (fingerprint : Document → List Span → κ) (p : Parser σ) (l : Language σ)
    (d : Document) (s : Suspended σ) : Bool :=
  s.grammar == l.grammar && fingerprint s.document s.ranges == fingerprint d p.includedRanges

/-- What a call for `d` gives the engine. -/
def taskBy (fingerprint : Document → List Span → κ) (p : Parser σ) (outside : Outside)
    (l : Language σ) (d : Document) (oldTree : Option Tree) : Task σ where
  source := .ofDocument d p.includedRanges
  oldTree := oldTree.filter (p.admits l)
  progress := (p.suspended.filter (p.continuesBy fingerprint l d)).map (·.progress)
  patience := outside.patience

/-- Parses a document. -/
def parseBy (fingerprint : Document → List Span → κ) (p : Parser σ) (outside : Outside)
    (generation : Nat) (d : Document) (oldTree : Option Tree) :
    Except Failure Tree × Parser σ :=
  match p.language with
  | none => (.error (.error .noLanguage), p)
  | some l =>
    p.conclude l d
      (l.engine generation (p.probes outside) (p.taskBy fingerprint outside l d oldTree)
        (.start p.timeout))

/-- With inputs for fingerprints the test for a progress is the one on inputs. -/
theorem continuesBy_input (p : Parser σ) (l : Language σ) (d : Document) :
    p.continuesBy Prod.mk l d = p.continues l d := by
  funext s
  apply Bool.eq_iff_iff.2
  simp [continuesBy, continues, and_assoc]

/-- With inputs for fingerprints an engine gets the same task. -/
theorem taskBy_input (p : Parser σ) (outside : Outside) (l : Language σ) (d : Document)
    (oldTree : Option Tree) :
    p.taskBy Prod.mk outside l d oldTree = p.task outside l d oldTree := by
  rw [taskBy, task, continuesBy_input]

/-- With inputs for fingerprints a call is one that compares inputs. -/
theorem parseBy_input (p : Parser σ) (outside : Outside) (generation : Nat) (d : Document)
    (oldTree : Option Tree) :
    p.parseBy Prod.mk outside generation d oldTree = p.parse outside generation d oldTree := by
  rw [parseBy, parse]
  cases p.language with
  | none => rfl
  | some l => simp only [taskBy_input]

end Reparse.Parser
